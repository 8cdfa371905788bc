import WorkStealing.Pool.Range
import Mathlib.Algebra.Order.Ring.Nat

namespace WorkStealing.Pool.Range

/-- The range from `lo` to `hi` in `m` portions of `g` indices, but for the last, which may have
fewer. The `i`-th of them goes from `bound i` to `bound (i + 1)`. -/
structure Portions (lo hi : UInt64) (g m : Nat) (bound : Nat → UInt64) : Prop where
  first : bound 0 = lo
  last : bound m = hi
  lt : ∀ i < m, bound i < bound (i + 1)
  full : ∀ i, i + 1 < m → (bound (i + 1)).toNat = (bound i).toNat + g
  short : ∀ i < m, (bound (i + 1)).toNat ≤ (bound i).toNat + g

variable {lo hi x : UInt64} {g m n i k : Nat} {bound : Nat → UInt64}

theorem toNat_max (a b : UInt64) : (max a b).toNat = max a.toNat b.toNat := by
  change (if a ≤ b then b else a).toNat = _
  split
  · rename_i h
    exact (Nat.max_eq_right (UInt64.le_iff_toNat_le.1 h)).symm
  · rename_i h
    exact (Nat.max_eq_left (mt UInt64.le_iff_toNat_le.2 h |> Nat.le_of_not_le)).symm

theorem toNat_min (a b : UInt64) : (min a b).toNat = min a.toNat b.toNat := by
  change (if a ≤ b then a else b).toNat = _
  split
  · rename_i h
    exact (Nat.min_eq_left (UInt64.le_iff_toNat_le.1 h)).symm
  · rename_i h
    exact (Nat.min_eq_right (mt UInt64.le_iff_toNat_le.2 h |> Nat.le_of_not_le)).symm

theorem toNat_granularity (h4 : 4 * n < 2 ^ 64) (h : lo < hi) (least : UInt64) :
    (granularity n least lo hi).toNat = max ((hi.toNat - lo.toNat) / (4 * n)) least.toNat := by
  have hsub : (hi - lo).toNat = hi.toNat - lo.toNat := UInt64.toNat_sub_of_le _ _ (UInt64.le_of_lt h)
  have hdiv : ((hi - lo) / .ofNat (n * 4)).toNat = (hi.toNat - lo.toNat) / (4 * n) := by
    rw [UInt64.toNat_div, hsub, UInt64.toNat_ofNat', Nat.mul_comm n, Nat.mod_eq_of_lt h4]
  rw [granularity, toNat_max, hdiv]

def boundary (lo hi : UInt64) (g i : Nat) : UInt64 := .ofNat (min (lo.toNat + i * g) hi.toNat)

theorem toNat_boundary (lo hi : UInt64) (g i : Nat) :
    (boundary lo hi g i).toNat = min (lo.toNat + i * g) hi.toNat := by
  have hlt := hi.toNat_lt
  rw [boundary, UInt64.toNat_ofNat', Nat.mod_eq_of_lt (by omega)]

theorem exists_portions (h : lo < hi) (hg : 0 < g) : ∃ m, Portions lo hi g m (boundary lo hi g) ∧
    ∀ i, i < m ↔ i * g < hi.toNat - lo.toNat := by
  have hlt := UInt64.lt_iff_toNat_lt.1 h
  have hcount (i : Nat) : i < (hi.toNat - lo.toNat + g - 1) / g ↔ i * g < hi.toNat - lo.toNat := by
    rw [Nat.lt_iff_add_one_le, Nat.le_div_iff_mul_le hg, Nat.succ_mul]
    omega
  generalize (hi.toNat - lo.toNat + g - 1) / g = m at hcount
  have hm := mt (hcount m).2 (Nat.lt_irrefl m)
  refine ⟨m, ⟨?_, ?_, fun i hi => ?_, fun i hi => ?_, fun i hi => ?_⟩, hcount⟩
  · rw [← UInt64.toNat_inj, toNat_boundary]
    omega
  · rw [← UInt64.toNat_inj, toNat_boundary]
    omega
  · have hi := (hcount i).1 hi
    rw [UInt64.lt_iff_toNat_lt, toNat_boundary, toNat_boundary, Nat.succ_mul]
    omega
  · have hi := (hcount (i + 1)).1 hi
    rw [Nat.succ_mul] at hi
    rw [toNat_boundary, toNat_boundary, Nat.succ_mul]
    omega
  · rw [toNat_boundary, toNat_boundary, Nat.succ_mul]
    omega

theorem count_le_length (h0 : 0 < g) (hm : ∀ i, i < m ↔ i * g < hi.toNat - lo.toNat) :
    m ≤ hi.toNat - lo.toNat := by
  by_contra hlt
  have hlast := (hm (hi.toNat - lo.toNat)).1 (by omega)
  exact absurd hlast (Nat.not_lt.2 (Nat.le_mul_of_pos_right _ h0))

/-- As long as portions are no shorter than a share of four for each of `n` workers would be, there
are fewer than twice as many. -/
theorem count_le (hn : 0 < n) (h0 : 0 < g) (hg : (hi.toNat - lo.toNat) / (4 * n) ≤ g)
    (hm : ∀ i, i < m ↔ i * g < hi.toNat - lo.toNat) : m ≤ 8 * n - 1 := by
  by_contra hlt
  have hlast := (hm (8 * n - 1)).1 (by omega)
  have hshare : hi.toNat - lo.toNat < (g + 1) * (4 * n) :=
    (Nat.div_lt_iff_lt_mul (by omega)).1 (Nat.lt_succ_of_le hg)
  have hpart : 4 * n - 1 ≤ (4 * n - 1) * g := Nat.le_mul_of_pos_right _ h0
  have hsum : (8 * n - 1) * g = (4 * n) * g + (4 * n - 1) * g := by
    rw [← Nat.add_mul]
    congr 1
    omega
  rw [Nat.succ_mul, Nat.mul_comm g] at hshare
  omega

namespace Portions

theorem le (h : Portions lo hi g m bound) (hik : i ≤ k) (hk : k ≤ m) : bound i ≤ bound k := by
  induction k, hik using Nat.le_induction with
  | base => exact UInt64.le_refl _
  | succ k hik ih => exact UInt64.le_trans (ih (by omega)) (UInt64.le_of_lt (h.lt k (by omega)))

theorem lt_last (h : Portions lo hi g m bound) (hk : k ≤ m) : bound k < hi ↔ k < m := by
  constructor
  · intro hlt
    rcases Nat.lt_or_eq_of_le hk with hk | rfl
    · exact hk
    · exact absurd (h.last ▸ hlt) (UInt64.lt_irrefl _)
  · intro hk
    have hle := h.le (i := k + 1) hk le_rfl
    rw [h.last] at hle
    exact UInt64.lt_of_lt_of_le (h.lt k hk) hle

theorem toNat_chunkEnd (h : Portions lo hi g m bound) (hk : k ≤ m) {length : UInt64}
    (hg : length.toNat = g) : (chunkEnd length (bound k) hi).toNat =
      (bound k).toNat + min g (hi.toNat - (bound k).toNat) := by
  have hle := UInt64.le_iff_toNat_le.1 (h.last ▸ h.le hk le_rfl)
  have hlt := hi.toNat_lt
  have hsub : (hi - bound k).toNat = hi.toNat - (bound k).toNat :=
    UInt64.toNat_sub_of_le _ _ (UInt64.le_iff_toNat_le.2 hle)
  rw [chunkEnd, UInt64.toNat_add, toNat_min, hsub, hg, Nat.mod_eq_of_lt (by omega)]

theorem chunkEnd_eq (h : Portions lo hi g m bound) (hk : k < m) {length : UInt64}
    (hg : length.toNat = g) : chunkEnd length (bound k) hi = bound (k + 1) := by
  rw [← UInt64.toNat_inj, h.toNat_chunkEnd hk.le hg]
  have hnext := UInt64.le_iff_toNat_le.1 (h.last ▸ h.le (i := k + 1) hk le_rfl)
  rcases Nat.lt_or_eq_of_le (show k + 1 ≤ m from hk) with hlt | rfl
  · have hfull := h.full k hlt
    omega
  · have hshort := h.short k hk
    have hlt := UInt64.lt_iff_toNat_lt.1 (h.lt k hk)
    rw [h.last] at hshort hlt ⊢
    omega

theorem countP_range (h : Portions lo hi g m bound) (hk : k ≤ m) (x : UInt64) :
    (List.range k).countP (fun i => bound i ≤ x ∧ x < bound (i + 1)) =
      if lo ≤ x ∧ x < bound k then 1 else 0 := by
  induction k with
  | zero =>
    have hnot : ¬ (lo ≤ x ∧ x < bound 0) := fun hx =>
      absurd (h.first ▸ hx.2) (UInt64.not_lt.2 hx.1)
    rw [if_neg hnot]
    rfl
  | succ k ih =>
    have hfirst := UInt64.le_iff_toNat_le.1 (h.first ▸ h.le (Nat.zero_le k) (by omega))
    have hnext := UInt64.lt_iff_toNat_lt.1 (h.lt k (by omega))
    rw [List.range_succ, List.countP_append, ih (by omega), List.countP_singleton]
    simp only [decide_eq_true_eq, UInt64.le_iff_toNat_le, UInt64.lt_iff_toNat_lt]
    split <;> split <;> split <;> omega

end Portions

end WorkStealing.Pool.Range
