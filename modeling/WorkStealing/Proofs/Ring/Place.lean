import WorkStealing.Ring.Basic
import Mathlib.Data.List.Nodup
import Mathlib.Data.Nat.Bitwise

namespace WorkStealing.Ring

theorem isCapacity_iff {n : UInt64} : isCapacity n ↔ ∃ k, 1 ≤ k ∧ n.toNat = 2 ^ k := by
  have key (h2 : 2 ≤ n.toNat) : n &&& (n - 1) = 0 ↔ n.toNat.isPowerOfTwo := by
    have hsub : (n - 1).toNat = n.toNat - 1 := by
      rw [UInt64.toNat_sub_of_le _ _ (UInt64.le_iff_toNat_le.2 (by simp; omega))]; rfl
    rw [← Nat.and_sub_one_eq_zero_iff_isPowerOfTwo (by omega), ← UInt64.toNat_inj,
      UInt64.toNat_and, hsub, UInt64.toNat_zero]
  have hcap : isCapacity n ↔ 2 ≤ n.toNat ∧ n &&& (n - 1) = 0 := by
    simp [isCapacity, UInt64.le_iff_toNat_le]
  rw [hcap]
  constructor
  · rintro ⟨h2, hz⟩
    obtain ⟨k, hk⟩ := (key h2).1 hz
    refine ⟨k, ?_, hk⟩
    rcases k with _ | k
    · omega
    · omega
  · rintro ⟨k, hk, he⟩
    have h2 : 2 ≤ n.toNat := he ▸ Nat.pow_le_pow_right (by omega : 0 < 2) hk
    exact ⟨h2, (key h2).2 ⟨k, he⟩⟩

theorem exponent_le {n : UInt64} {k : Nat} (h : n.toNat = 2 ^ k) : k ≤ 63 :=
  Nat.le_of_lt_succ ((Nat.pow_lt_pow_iff_right (by decide)).1 (h ▸ n.toNat_lt))

theorem capacity_exponent {n : UInt64} (h : isCapacity n) :
    ∃ k, 1 ≤ k ∧ k ≤ 63 ∧ n.toNat = 2 ^ k := by
  obtain ⟨k, hk1, hk⟩ := isCapacity_iff.1 h
  exact ⟨k, hk1, exponent_le hk, hk⟩

theorem toNat_sub_one {n : UInt64} {k : Nat} (h : n.toNat = 2 ^ k) : (n - 1).toNat = 2 ^ k - 1 := by
  have hle : (1 : UInt64) ≤ n := UInt64.le_iff_toNat_le.2 (h ▸ Nat.one_le_two_pow)
  rw [UInt64.toNat_sub_of_le _ _ hle, h, UInt64.toNat_one]

/-- Bit `i` of a place is bit `swapBit w i` of the position. -/
def swapBit (w i : Nat) : Nat := if i < w then i + w else if i < 2 * w then i - w else i

theorem swapBit_swapBit (w i : Nat) : swapBit w (swapBit w i) = i := by
  simp only [swapBit]; split <;> split <;> (try split) <;> omega

theorem swapBit_lt {w k i : Nat} (hw : 2 * w ≤ k) (hi : i < k) : swapBit w i < k := by
  simp only [swapBit]; split
  · omega
  · split <;> omega

/-- The masks of a shuffle of `2 ^ k` slots single out two groups of `w` bits and the bits above
them. -/
structure Shuffle.Masks (s : Shuffle) (k w : Nat) : Prop where
  width : s.width.toNat = w
  low : ∀ i, s.low.toNat.testBit i = decide (i < w)
  middle : ∀ i, s.middle.toNat.testBit i = decide (w ≤ i ∧ i < 2 * w)
  high : ∀ i, s.high.toNat.testBit i = decide (2 * w ≤ i ∧ i < k)

theorem masks_inOrder {mask : UInt64} {k : Nat} (h : mask.toNat = 2 ^ k - 1) :
    (Shuffle.inOrder mask).Masks k 0 := by
  constructor <;> simp [Shuffle.inOrder, h]

theorem toNat_lowMask {width : UInt64} (hw : width.toNat < 64) :
    (((1 : UInt64) <<< width) - 1).toNat = 2 ^ width.toNat - 1 := by
  have hone : ((1 : UInt64) <<< width).toNat = 2 ^ width.toNat := by
    rw [UInt64.toNat_shiftLeft, Nat.mod_eq_of_lt hw, UInt64.toNat_one, Nat.one_shiftLeft]
    exact Nat.mod_eq_of_lt (Nat.pow_lt_pow_right (by omega) hw)
  have hle : (1 : UInt64) ≤ 1 <<< width := UInt64.le_iff_toNat_le.2 (hone ▸ Nat.one_le_two_pow)
  rw [UInt64.toNat_sub_of_le _ _ hle, hone, UInt64.toNat_one]

theorem testBit_not (x : UInt64) (i : Nat) :
    (~~~x).toNat.testBit i = (decide (i < 64) && !x.toNat.testBit i) := by
  rw [UInt64.toNat_not, UInt64.size, Nat.sub_sub, Nat.add_comm,
    Nat.testBit_two_pow_sub_succ x.toNat_lt]

theorem masks_ofWidth {mask width : UInt64} {k : Nat} (hm : mask.toNat = 2 ^ k - 1) (hk : k ≤ 63)
    (hw : 2 * width.toNat ≤ k) : (Shuffle.ofWidth mask width).Masks k width.toNat := by
  have hlt : width.toNat < 64 := by omega
  have hlow (i : Nat) :
      (((1 : UInt64) <<< width) - 1).toNat.testBit i = decide (i < width.toNat) := by
    rw [toNat_lowMask hlt, Nat.testBit_two_pow_sub_one]
  have hmiddle (i : Nat) : ((((1 : UInt64) <<< width) - 1) <<< width).toNat.testBit i =
      decide (width.toNat ≤ i ∧ i < 2 * width.toNat) := by
    rw [UInt64.toNat_shiftLeft, Nat.mod_eq_of_lt hlt, Nat.testBit_mod_two_pow,
      Nat.testBit_shiftLeft, hlow, Bool.eq_iff_iff]
    simp only [Bool.and_eq_true, decide_eq_true_eq]
    omega
  refine ⟨rfl, hlow, hmiddle, fun i => ?_⟩
  rw [Shuffle.ofWidth, UInt64.toNat_and, Nat.testBit_and, testBit_not, UInt64.toNat_or,
    Nat.testBit_or, hlow, hmiddle, hm, Nat.testBit_two_pow_sub_one, Bool.eq_iff_iff]
  simp only [Bool.and_eq_true, Bool.not_eq_true', Bool.or_eq_false_iff, decide_eq_true_eq,
    decide_eq_false_iff_not]
  omega

def Shuffle.Mixes (s : Shuffle) (k w : Nat) : Prop :=
  ∀ pos i, (s.index pos).toNat.testBit i = (decide (i < k) && pos.toNat.testBit (swapBit w i))

theorem Shuffle.Masks.mixes {s : Shuffle} {k w : Nat} (h : s.Masks k w) (hk : k ≤ 63)
    (hw : 2 * w ≤ k) : s.Mixes k w := by
  intro pos i
  simp only [Shuffle.index, UInt64.toNat_or, UInt64.toNat_and, UInt64.toNat_shiftLeft,
    UInt64.toNat_shiftRight, h.width, Nat.mod_eq_of_lt (by omega : w < 64), Nat.testBit_or,
    Nat.testBit_and, Nat.testBit_mod_two_pow, Nat.testBit_shiftLeft, Nat.testBit_shiftRight, h.low,
    h.middle, h.high, swapBit]
  rcases Nat.lt_or_ge i w with hlow | hlow
  · have hik : i < k := by omega
    have hmiddle : w ≤ w + i ∧ w + i < 2 * w := by omega
    simp [hlow, hik, hmiddle, Nat.add_comm i w, Nat.not_le.2 hlow, show ¬ 2 * w ≤ i by omega]
  · rcases Nat.lt_or_ge i (2 * w) with hmiddle | hhigh
    · have hik : i < k := by omega
      have hsub : i - w < w := by omega
      simp [hlow, hmiddle, hik, hsub, Nat.not_lt.2 hlow, Nat.not_le.2 hmiddle,
        show i < 64 by omega, show ¬ w + i < 2 * w by omega]
    · simp [hhigh, Nat.not_lt.2 hlow, Nat.not_lt.2 hhigh, show ¬ i - w < w by omega,
        show ¬ w + i < 2 * w by omega, Bool.and_comm]

theorem Shuffle.Mixes.lt {s : Shuffle} {k w : Nat} (h : s.Mixes k w) (pos : UInt64) :
    (s.index pos).toNat < 2 ^ k := by
  apply Nat.lt_pow_two_of_testBit
  intro i hi
  simp [h pos i, Nat.not_lt.2 hi]

theorem Shuffle.Mixes.eq_iff {s : Shuffle} {k w : Nat} (h : s.Mixes k w) (hw : 2 * w ≤ k)
    (p q : UInt64) : s.index p = s.index q ↔ p.toNat % 2 ^ k = q.toNat % 2 ^ k := by
  constructor
  · intro he
    apply Nat.eq_of_testBit_eq
    intro i
    simp only [Nat.testBit_mod_two_pow]
    by_cases hi : i < k
    · have hp := h p (swapBit w i)
      have hq := h q (swapBit w i)
      rw [he, hq] at hp
      simpa [swapBit_swapBit, swapBit_lt hw hi, hi] using hp.symm
    · simp [hi]
  · intro he
    apply UInt64.toNat_inj.1
    apply Nat.eq_of_testBit_eq
    intro i
    rw [h p i, h q i]
    by_cases hi : i < k
    · have hb := congrArg (Nat.testBit · (swapBit w i)) he
      simpa [Nat.testBit_mod_two_pow, swapBit_lt hw hi, hi] using hb
    · simp [hi]

theorem acrossLines_cases {capacity : UInt64} (slotSize : UInt64) {k : Nat}
    (hc : capacity.toNat = 2 ^ k) :
    Shuffle.acrossLines capacity slotSize = Shuffle.inOrder (capacity - 1) ∨
      slotSize ≠ 0 ∧ slotSize.toNat < Shuffle.lineSize ∧
        ∃ w, w = Shuffle.widthFrom (Shuffle.slotsPerLine slotSize.toNat) 1 ∧ 2 * w ≤ k ∧
          Shuffle.acrossLines capacity slotSize = Shuffle.ofWidth (capacity - 1) (.ofNat w) := by
  simp only [Shuffle.acrossLines]
  split
  · exact .inl rfl
  · rename_i hsize
    rw [not_or, Nat.not_le] at hsize
    split
    · exact .inl rfl
    · rename_i hfits
      rw [hc, Nat.one_shiftLeft, Nat.not_lt] at hfits
      have hle := (Nat.pow_le_pow_iff_right (by decide)).1 hfits
      exact .inr ⟨hsize.1, hsize.2, _, rfl, by omega, rfl⟩

theorem acrossLines_masks {capacity : UInt64} (slotSize : UInt64) {k : Nat} (hk : k ≤ 63)
    (hc : capacity.toNat = 2 ^ k) :
    ∃ w, 2 * w ≤ k ∧ (Shuffle.acrossLines capacity slotSize).Masks k w := by
  have hm := toNat_sub_one hc
  rcases acrossLines_cases slotSize hc with he | ⟨-, -, w, -, hw, he⟩
  · exact ⟨0, by omega, he ▸ masks_inOrder hm⟩
  · have hwn : (UInt64.ofNat w).toNat = w :=
      UInt64.toNat_ofNat_of_lt' (Nat.lt_of_le_of_lt (by omega : w ≤ 63) (by decide))
    have hmasks : (Shuffle.ofWidth (capacity - 1) (.ofNat w)).Masks k (UInt64.ofNat w).toNat :=
      masks_ofWidth hm hk (by omega)
    rw [hwn, ← he] at hmasks
    exact ⟨w, hw, hmasks⟩

section Fold

variable {β : Type} (f : Nat → Nat) (v : Nat → β)

theorem foldl_set_size (ps : List Nat) (slots : Array β) :
    (ps.foldl (fun a p => a.setIfInBounds (f p) (v p)) slots).size = slots.size := by
  induction ps generalizing slots with
  | nil => rfl
  | cons p ps ih => simp [ih]

theorem foldl_set_ne (ps : List Nat) (slots : Array β) (i : Nat) (hi : ∀ p ∈ ps, f p ≠ i) :
    (ps.foldl (fun a p => a.setIfInBounds (f p) (v p)) slots)[i]? = slots[i]? := by
  induction ps generalizing slots with
  | nil => rfl
  | cons p ps ih =>
    rw [List.foldl_cons, ih _ fun q hq => hi q (by simp [hq]),
      Array.getElem?_setIfInBounds_ne (hi p (by simp))]

theorem foldl_set_mem (ps : List Nat) (slots : Array β) (hb : ∀ p ∈ ps, f p < slots.size)
    (hn : (ps.map f).Nodup) {p : Nat} (hp : p ∈ ps) :
    (ps.foldl (fun a p => a.setIfInBounds (f p) (v p)) slots)[f p]? = some (v p) := by
  induction ps generalizing slots with
  | nil => simp at hp
  | cons q ps ih =>
    obtain ⟨hq, hn⟩ := List.nodup_cons.1 hn
    rw [List.foldl_cons]
    rcases List.mem_cons.1 hp with rfl | hp
    · rw [foldl_set_ne f v ps _ _ fun r hr he => hq (List.mem_map.2 ⟨r, hr, he⟩),
        Array.getElem?_setIfInBounds_self_of_lt (hb p (by simp))]
    · exact ih _ (fun r hr => by simpa using hb r (by simp [hr])) hn hp

end Fold

variable {α : Type}

structure Shaped (r : Ring α) (n : Nat) : Prop where
  two_le : 2 ≤ n
  dvd : n ∣ 2 ^ 63
  size : r.slots.size = n
  capacity : r.capacity.toNat = n
  place_lt : ∀ pos, r.place pos < n
  place_eq : ∀ p q : UInt64, r.place p = r.place q ↔ p.toNat % n = q.toNat % n

theorem shaped_of_mixes {capacity : UInt64} {s : Shuffle} {k w : Nat} (hk1 : 1 ≤ k) (hk : k ≤ 63)
    (hc : capacity.toNat = 2 ^ k) (hw : 2 * w ≤ k) (h : s.Mixes k w) (back front : UInt64) :
    Shaped (⟨tagAll s capacity.toNat, capacity - 1, s, back, front⟩ : Ring α) capacity.toNat where
  two_le := by
    rw [hc]
    exact Nat.pow_le_pow_right (by omega : 0 < 2) hk1
  dvd := hc ▸ Nat.pow_dvd_pow 2 hk
  size := by rw [tagAll, foldl_set_size]; simp
  capacity := by simp [Ring.capacity]
  place_lt pos := hc ▸ h.lt pos
  place_eq p q := by
    rw [hc, ← h.eq_iff hw p q]
    exact UInt64.toNat_inj

theorem slot?_tagAll {capacity : UInt64} {s : Shuffle} {k w : Nat} (hk : k ≤ 63)
    (hc : capacity.toNat = 2 ^ k) (hw : 2 * w ≤ k) (h : s.Mixes k w) (back front : UInt64)
    {p : Nat} (hp : p < capacity.toNat) :
    (⟨tagAll s capacity.toNat, capacity - 1, s, back, front⟩ : Ring α).slot? (.ofNat p) =
      some ⟨.ofNat p, none⟩ := by
  have hlt : 2 ^ k < 2 ^ 64 := Nat.pow_lt_pow_right (by omega) (by omega)
  have hnat : ∀ q, q < capacity.toNat → (UInt64.ofNat q).toNat = q := fun q hq => by
    rw [UInt64.toNat_ofNat']
    exact Nat.mod_eq_of_lt (by omega)
  refine foldl_set_mem (fun p => (s.index (.ofNat p)).toNat)
    (fun p => (⟨.ofNat p, none⟩ : Slot α)) _ _ ?_ ?_ (List.mem_range.2 hp)
  · intro q _
    simpa [hc] using h.lt (.ofNat q)
  · refine List.Nodup.map_on (fun x hx y hy he => ?_) List.nodup_range
    rw [List.mem_range] at hx hy
    have := (h.eq_iff hw _ _).1 (UInt64.toNat_inj.1 he)
    rwa [hnat x hx, hnat y hy, ← hc, Nat.mod_eq_of_lt hx, Nat.mod_eq_of_lt hy] at this

theorem new_ok {capacity : UInt64} {slotSize : Option UInt64} {r : Ring α}
    (h : Ring.new capacity slotSize = .ok r) :
    r.Shaped capacity.toNat ∧ r.back = 0 ∧ r.front = 0 ∧
      ∀ p, p < capacity.toNat → r.slot? (.ofNat p) = some ⟨.ofNat p, none⟩ := by
  simp only [Ring.new] at h
  split at h
  · rename_i hcap
    obtain ⟨k, hk1, hk, hc⟩ := capacity_exponent hcap
    obtain ⟨s, w, hw, hs, rfl⟩ : ∃ s w, 2 * w ≤ k ∧ Shuffle.Mixes s k w ∧
        r = ⟨tagAll s capacity.toNat, capacity - 1, s, 0, 0⟩ := by
      cases slotSize with
      | none =>
        exact ⟨_, 0, by omega, (masks_inOrder (toNat_sub_one hc)).mixes hk (by omega),
          by simpa using h.symm⟩
      | some size =>
        obtain ⟨w, hw, hs⟩ := acrossLines_masks size hk hc
        exact ⟨_, w, hw, hs.mixes hk hw, by simpa using h.symm⟩
    exact ⟨shaped_of_mixes hk1 hk hc hw hs 0 0, rfl, rfl,
      fun p hp => slot?_tagAll hk hc hw hs 0 0 hp⟩
  · simp at h

theorem new_isOk {capacity : UInt64} (h : ∃ k, 1 ≤ k ∧ capacity.toNat = 2 ^ k)
    (slotSize : Option UInt64) : ∃ r : Ring α, Ring.new capacity slotSize = .ok r := by
  simp only [Ring.new, if_pos (isCapacity_iff.2 h)]
  exact ⟨_, rfl⟩

theorem Shaped.le {r : Ring α} {n : Nat} (h : r.Shaped n) : n ≤ 2 ^ 63 :=
  Nat.le_of_dvd (by omega) h.dvd

theorem Shaped.congr {r t : Ring α} {n : Nat} (h : r.Shaped n) (hs : t.slots.size = r.slots.size)
    (hm : t.mask = r.mask) (hf : t.shuffle = r.shuffle) : t.Shaped n where
  two_le := h.two_le
  dvd := h.dvd
  size := hs ▸ h.size
  capacity := by simpa [Ring.capacity, hm] using h.capacity
  place_lt pos := by simpa [place, hf] using h.place_lt pos
  place_eq p q := by simpa [place, hf] using h.place_eq p q

theorem Shaped.setTag {r : Ring α} {n : Nat} (h : r.Shaped n) (pos tag : UInt64) :
    (r.setTag pos tag).Shaped n := h.congr (by simp [Ring.setTag]) rfl rfl

theorem Shaped.setCell {r : Ring α} {n : Nat} (h : r.Shaped n) (pos : UInt64) (cell : Option α) :
    (r.setCell pos cell).Shaped n := h.congr (by simp [Ring.setCell]) rfl rfl

theorem slot?_setTag (r : Ring α) (p q tag : UInt64) :
    (r.setTag p tag).slot? q =
      if r.place p = r.place q then (r.slot? q).map fun s => { s with tag } else r.slot? q := by
  simp only [slot?, setTag, place]
  exact Array.getElem?_modify

theorem slot?_setCell (r : Ring α) (p q : UInt64) (cell : Option α) :
    (r.setCell p cell).slot? q =
      if r.place p = r.place q then (r.slot? q).map fun s => { s with cell } else r.slot? q := by
  simp only [slot?, setCell, place]
  exact Array.getElem?_modify

end WorkStealing.Ring
