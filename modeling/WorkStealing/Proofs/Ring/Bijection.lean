import WorkStealing.Proofs.Ring.Place
import Mathlib.Data.Set.Function

namespace WorkStealing.Ring

namespace Shuffle

/-- The search for a width ends at the first that has as many numbers as a line has slots, and no
shift on the way to twice that width leaves the word. -/
structure Sought (slots w : Nat) : Prop where
  one_le : 1 ≤ w
  enough : slots ≤ 2 ^ w
  first : ∀ v, 1 ≤ v → v < w → 2 ^ v < slots
  shift : ∀ v, v ≤ 2 * w → ((1 : UInt64) <<< UInt64.ofNat v).toNat = 2 ^ v

theorem le_widthFrom (n w : Nat) : w ≤ widthFrom n w := by
  fun_induction widthFrom n w with
  | case1 w h ih => omega
  | case2 w h => exact Nat.le_refl w

theorem enough_widthFrom (n w : Nat) : n ≤ 2 ^ widthFrom n w := by
  fun_induction widthFrom n w with
  | case1 w h ih => exact ih
  | case2 w h => rwa [Nat.not_lt, Nat.one_shiftLeft] at h

theorem first_widthFrom {n w v : Nat} (hw : w ≤ v) (hv : v < widthFrom n w) : 2 ^ v < n := by
  fun_induction widthFrom n w with
  | case1 w h ih =>
    rcases Nat.eq_or_lt_of_le hw with rfl | hlt
    · rwa [Nat.one_shiftLeft] at h
    · exact ih hlt hv
  | case2 w h => omega

theorem slotsPerLine_le {slotSize : Nat} (h : 0 < slotSize) : slotsPerLine slotSize ≤ lineSize := by
  rw [slotsPerLine, Nat.div_le_iff_le_mul_add_pred h]
  have : lineSize ≤ slotSize * lineSize := Nat.le_mul_of_pos_left _ h
  omega

theorem widthFrom_le (slotSize : Nat) : widthFrom (slotsPerLine slotSize) 1 ≤ 6 := by
  by_contra hc
  have hlt : 2 ^ 6 < slotsPerLine slotSize :=
    first_widthFrom (w := 1) (by decide) (Nat.not_le.1 hc)
  rcases Nat.eq_zero_or_pos slotSize with rfl | hpos
  · exact absurd hlt (by decide)
  · exact absurd (slotsPerLine_le hpos) (Nat.not_le.2 hlt)

theorem sought (slotSize : Nat) :
    Sought (slotsPerLine slotSize) (widthFrom (slotsPerLine slotSize) 1) where
  one_le := le_widthFrom _ 1
  enough := enough_widthFrom _ 1
  first _ := first_widthFrom
  shift v hv := by
    have hle := widthFrom_le slotSize
    have hnat : (UInt64.ofNat v).toNat = v := by
      rw [UInt64.toNat_ofNat']
      exact Nat.mod_eq_of_lt (by omega)
    rw [UInt64.toNat_shiftLeft, hnat, Nat.mod_eq_of_lt (by omega : v < 64), UInt64.toNat_one,
      Nat.one_shiftLeft]
    exact Nat.mod_eq_of_lt (Nat.pow_lt_pow_right (by omega) (by omega))

structure Bijects (s : Shuffle) (capacity : UInt64) : Prop where
  low_middle : s.low &&& s.middle = 0
  low_high : s.low &&& s.high = 0
  middle_high : s.middle &&& s.high = 0
  together : s.low ||| s.middle ||| s.high = capacity - 1
  index_lt : ∀ pos, s.index pos < capacity
  index_mod : ∀ n : Nat, s.index (.ofNat n) = s.index (.ofNat (n % capacity.toNat))
  index_index : ∀ pos, pos < capacity → s.index (s.index pos) = pos
  bijOn : Set.BijOn s.index {pos | pos < capacity} {pos | pos < capacity}

variable {s : Shuffle} {capacity : UInt64} {k w : Nat}

theorem eq_of_testBit {x y : UInt64} (h : ∀ i, x.toNat.testBit i = y.toNat.testBit i) : x = y :=
  UInt64.toNat_inj.1 (Nat.eq_of_testBit_eq h)

theorem Masks.apart (h : s.Masks k w) :
    s.low &&& s.middle = 0 ∧ s.low &&& s.high = 0 ∧ s.middle &&& s.high = 0 := by
  refine ⟨eq_of_testBit fun i => ?_, eq_of_testBit fun i => ?_, eq_of_testBit fun i => ?_⟩ <;>
    simp only [UInt64.toNat_and, Nat.testBit_and, h.low, h.middle, h.high, UInt64.toNat_zero,
      Nat.zero_testBit, Bool.and_eq_false_iff, decide_eq_false_iff_not] <;> omega

theorem Masks.together (h : s.Masks k w) (hw : 2 * w ≤ k) (hc : capacity.toNat = 2 ^ k) :
    s.low ||| s.middle ||| s.high = capacity - 1 := by
  refine eq_of_testBit fun i => ?_
  rw [toNat_sub_one hc, Nat.testBit_two_pow_sub_one, Bool.eq_iff_iff]
  simp only [UInt64.toNat_or, Nat.testBit_or, h.low, h.middle, h.high, Bool.or_eq_true,
    decide_eq_true_eq]
  omega

theorem Mixes.index_index (h : s.Mixes k w) (hw : 2 * w ≤ k) (pos : UInt64) :
    (s.index (s.index pos)).toNat = pos.toNat % 2 ^ k := by
  refine Nat.eq_of_testBit_eq fun i => ?_
  rw [h, h, Nat.testBit_mod_two_pow, swapBit_swapBit]
  by_cases hi : i < k <;> simp [hi, swapBit_lt hw]

theorem mod_two_pow_ofNat (hk : k ≤ 63) (n : Nat) : (UInt64.ofNat n).toNat % 2 ^ k = n % 2 ^ k := by
  rw [UInt64.toNat_ofNat']
  exact Nat.mod_mod_of_dvd n (Nat.pow_dvd_pow 2 (by omega : k ≤ 64))

theorem Masks.bijects (h : s.Masks k w) (hk : k ≤ 63) (hw : 2 * w ≤ k)
    (hc : capacity.toNat = 2 ^ k) : s.Bijects capacity := by
  have hmix := h.mixes hk hw
  have hlt (pos : UInt64) : s.index pos < capacity := UInt64.lt_iff_toNat_lt.2 (hc ▸ hmix.lt pos)
  have htwice (pos : UInt64) (hpos : pos < capacity) : s.index (s.index pos) = pos := by
    rw [UInt64.lt_iff_toNat_lt, hc] at hpos
    exact UInt64.toNat_inj.1 ((hmix.index_index hw pos).trans (Nat.mod_eq_of_lt hpos))
  obtain ⟨hlm, hlh, hmh⟩ := h.apart
  refine ⟨hlm, hlh, hmh, h.together hw hc, hlt, fun n => ?_, htwice, ?_⟩
  · rw [hmix.eq_iff hw, hc, mod_two_pow_ofNat hk, mod_two_pow_ofNat hk, Nat.mod_mod]
  · have hinv : Set.LeftInvOn s.index s.index {pos | pos < capacity} := fun pos hpos =>
      htwice pos hpos
    exact Set.BijOn.mk (fun pos _ => hlt pos) hinv.injOn
      fun pos hpos => ⟨s.index pos, hlt pos, htwice pos hpos⟩

end Shuffle

variable {α : Type}

structure Tagged (r : Ring α) (capacity : UInt64) : Prop where
  size : r.slots.size = capacity.toNat
  once : ∀ i < capacity.toNat, ∃! p, p < capacity.toNat ∧ r.place (.ofNat p) = i
  found : ∀ pos, r.slot? pos = some ⟨pos % capacity, none⟩

theorem tagged_of_bijects {r : Ring α} {capacity : UInt64} (hs : r.Shaped capacity.toNat)
    (hb : r.shuffle.Bijects capacity)
    (htag : ∀ p < capacity.toNat, r.slot? (.ofNat p) = some ⟨.ofNat p, none⟩) :
    r.Tagged capacity where
  size := hs.size
  once i hi := by
    have hnat {p : Nat} (hp : p < capacity.toNat) : (UInt64.ofNat p).toNat = p :=
      UInt64.toNat_ofNat_of_lt' (hp.trans capacity.toNat_lt)
    have hpos : UInt64.ofNat i < capacity := UInt64.lt_iff_toNat_lt.2 (by rwa [hnat hi])
    refine ⟨(r.shuffle.index (.ofNat i)).toNat, ⟨UInt64.lt_iff_toNat_lt.1 (hb.index_lt _), ?_⟩, ?_⟩
    · rw [place, UInt64.ofNat_toNat, hb.index_index _ hpos, hnat hi]
    · rintro p ⟨hp, rfl⟩
      have hp' : UInt64.ofNat p < capacity := UInt64.lt_iff_toNat_lt.2 (by rwa [hnat hp])
      rw [place, UInt64.ofNat_toNat, hb.index_index _ hp', hnat hp]
  found pos := by
    have hlt : pos.toNat % capacity.toNat < capacity.toNat :=
      Nat.mod_lt _ (Nat.lt_of_lt_of_le Nat.two_pos hs.two_le)
    have hplace : r.place pos = r.place (.ofNat (pos.toNat % capacity.toNat)) := by
      rw [hs.place_eq, UInt64.toNat_ofNat_of_lt' (hlt.trans capacity.toNat_lt), Nat.mod_mod]
    have hmod : UInt64.ofNat (pos.toNat % capacity.toNat) = pos % capacity := by
      rw [← UInt64.toNat_mod, UInt64.ofNat_toNat]
    rw [slot?, hplace, ← hmod]
    exact htag _ hlt

theorem new_shuffle {capacity : UInt64} {slotSize : UInt64} {r : Ring α}
    (h : Ring.new capacity (some slotSize) = .ok r) :
    r.shuffle = Shuffle.acrossLines capacity slotSize := by
  simp only [Ring.new] at h
  split at h
  · rw [← Except.ok.inj h]
  · cases h

theorem shuffle_bijective {capacity : UInt64} {k : Nat} (hk : 1 ≤ k) (hc : capacity.toNat = 2 ^ k)
    (slotSize : UInt64) :
    Shuffle.Sought (Shuffle.slotsPerLine slotSize.toNat)
        (Shuffle.widthFrom (Shuffle.slotsPerLine slotSize.toNat) 1) ∧
      (Shuffle.acrossLines capacity slotSize).Bijects capacity ∧
      ∃ r : Ring α, Ring.new capacity (some slotSize) = .ok r ∧
        r.shuffle = Shuffle.acrossLines capacity slotSize ∧ r.Tagged capacity := by
  have hk' := exponent_le hc
  obtain ⟨w, hw, hmasks⟩ := acrossLines_masks slotSize hk' hc
  have hbijects := hmasks.bijects hk' hw hc
  obtain ⟨r, hr⟩ := new_isOk (α := α) ⟨k, hk, hc⟩ (some slotSize)
  obtain ⟨hshaped, -, -, htag⟩ := new_ok hr
  have hshuffle := new_shuffle hr
  exact ⟨Shuffle.sought slotSize.toNat, hbijects, r, hr, hshuffle,
    tagged_of_bijects hshaped (hshuffle ▸ hbijects) htag⟩

theorem shuffle_bijective_forty : 1 ≤ 3 ∧ (8 : UInt64).toNat = 2 ^ 3 ∧
    (Shuffle.acrossLines 8 40).Bijects 8 ∧
    ∃ r : Ring Nat, Ring.new 8 (some 40) = .ok r ∧ r.Tagged 8 := by
  have hc : (8 : UInt64).toNat = 2 ^ 3 := by decide
  obtain ⟨-, hb, r, hr, -, ht⟩ := shuffle_bijective (α := Nat) (by decide) hc 40
  exact ⟨by decide, hc, hb, r, hr, ht⟩

end WorkStealing.Ring
