import WorkStealing.Proofs.Ring.Bijection
import Mathlib.Tactic.Ring

namespace WorkStealing.Ring

/-- The cache line on which a slot begins, if the first slot begins on one. -/
def line (slotSize : Nat) (place : UInt64) : Nat := place.toNat * slotSize / Shuffle.lineSize

/-- The positions of a ring of `n` slots whose successors lie in the slot beside theirs, when two
groups of `w` bits trade places. -/
def Abuts (w n pos : Nat) : Prop :=
  (pos + 1) % 4 ^ w = 0 ∧ pos + 1 < n ∨ w = 1 ∧ pos % 4 = 1

section Lines

variable {a b s : Nat}

theorem line_ne_of_le (h : a * s + 64 ≤ b * s) : a * s / 64 ≠ b * s / 64 := by omega

theorem line_succ_eq_iff : a * s / 64 = (a + 1) * s / 64 ↔ s ≤ (a + 1) * s % 64 := by
  rw [Nat.add_one_mul]
  omega

end Lines

namespace Shuffle

variable {s : Shuffle} {k w : Nat}

theorem Mixes.testBit (h : s.Mixes k w) (hw : 2 * w ≤ k) (pos : UInt64) (i : Nat) :
    (s.index pos).toNat.testBit i = (pos.toNat % 2 ^ k).testBit (swapBit w i) := by
  rw [h, Nat.testBit_mod_two_pow]
  by_cases hi : i < k
  · simp [hi, swapBit_lt hw hi]
  · have : ¬ swapBit w i < k := fun hlt => hi (swapBit_swapBit w i ▸ swapBit_lt hw hlt)
    simp [hi, this]

theorem Mixes.index_eq (h : s.Mixes k w) (hw : 2 * w ≤ k) {pos : UInt64} {up mid low : Nat}
    (hmid : mid < 2 ^ w) (hlow : low < 2 ^ w)
    (hpos : pos.toNat % 2 ^ k = 2 ^ w * (2 ^ w * up + mid) + low) :
    (s.index pos).toNat = 2 ^ w * (2 ^ w * up + low) + mid := by
  refine Nat.eq_of_testBit_eq fun i => ?_
  rw [h.testBit hw, hpos, Nat.testBit_two_pow_mul_add _ hlow, Nat.testBit_two_pow_mul_add _ hmid,
    Nat.testBit_two_pow_mul_add _ hmid, Nat.testBit_two_pow_mul_add _ hlow, swapBit]
  rcases Nat.lt_or_ge i w with hi | hi
  · simp [hi]
  · rcases Nat.lt_or_ge i (2 * w) with hi' | hi'
    · have hsub : i - w < w := by omega
      simp [Nat.not_lt.2 hi, hi', hsub]
    · simp [Nat.not_lt.2 hi, Nat.not_lt.2 hi', show ¬ i - w < w by omega]

structure Spreads (s : Shuffle) (slotSize k w : Nat) : Prop where
  mixes : s.Mixes k w
  one_le : 1 ≤ w
  le : 2 * w ≤ k
  small : slotSize < 64
  fills : 64 ≤ 2 ^ w * slotSize

theorem spreads_acrossLines {capacity slotSize : UInt64} {k : Nat} (hk : k ≤ 63)
    (hc : capacity.toNat = 2 ^ k) (hwidth : (acrossLines capacity slotSize).width ≠ 0) :
    (acrossLines capacity slotSize).Spreads slotSize.toNat k
      (acrossLines capacity slotSize).width.toNat := by
  obtain ⟨w, hw, hmasks⟩ := acrossLines_masks slotSize hk hc
  rw [hmasks.width]
  rcases acrossLines_cases slotSize hc with he | ⟨hzero, hsmall, v, rfl, hv, he⟩
  · exact absurd (he ▸ rfl) hwidth
  have hsought := sought slotSize.toNat
  obtain rfl : w = widthFrom (slotsPerLine slotSize.toNat) 1 := by
    rw [← hmasks.width, he]
    exact UInt64.toNat_ofNat_of_lt' (Nat.lt_of_le_of_lt (widthFrom_le _) (by decide))
  have hpos : 0 < slotSize.toNat := Nat.pos_of_ne_zero fun hz => hzero (UInt64.toNat_inj.1 hz)
  have hfills := (Nat.div_le_iff_le_mul_add_pred hpos).1 hsought.enough
  rw [lineSize, Nat.mul_comm] at hfills
  exact ⟨hmasks.mixes hk hw, hsought.one_le, hw, hsmall, by omega⟩

theorem toNat_succ_mod (hk : k ≤ 63) (pos : UInt64) :
    (pos + 1).toNat % 2 ^ k = (pos.toNat % 2 ^ k + 1) % 2 ^ k := by
  rw [UInt64.toNat_add, UInt64.toNat_one, Nat.mod_mod_of_dvd _ (Nat.pow_dvd_pow 2 (by omega)),
    Nat.mod_add_mod]

variable {slotSize up mid low n : Nat} {pos : UInt64}

theorem succ_mod_four_pow (hmid : mid < 2 ^ w) (hlow : low < 2 ^ w) :
    (2 ^ w * (2 ^ w * up + mid) + low + 1) % 4 ^ w = 0 ↔ low + 1 = 2 ^ w ∧ mid + 1 = 2 ^ w := by
  have hfour : 4 ^ w = 2 ^ w * 2 ^ w := by rw [← Nat.mul_pow]
  rw [hfour]
  generalize 2 ^ w = c at *
  constructor
  · intro hmod
    obtain ⟨q, hq⟩ := Nat.dvd_of_mod_eq_zero hmod
    have hlast : low + 1 = c := by
      have hdvd : c ∣ low + 1 := (Nat.dvd_add_right (Dvd.intro (c * up + mid) rfl)).1
        ⟨c * q, by rw [← Nat.add_assoc, hq, Nat.mul_assoc]⟩
      exact Nat.le_antisymm hlow (Nat.le_of_dvd low.succ_pos hdvd)
    refine ⟨hlast, Nat.le_antisymm hmid (Nat.le_of_dvd mid.succ_pos ?_)⟩
    have hc : 0 < c := hlast ▸ low.succ_pos
    have hrow : c * up + (mid + 1) = c * q :=
      Nat.eq_of_mul_eq_mul_left hc (by rw [← Nat.mul_assoc c c q, ← hq, Nat.add_assoc, hlast]; ring)
    exact (Nat.dvd_add_right (Dvd.intro up rfl)).1 ⟨q, hrow⟩
  · rintro ⟨hl, hm⟩
    refine Nat.mod_eq_zero_of_dvd ⟨up + 1, ?_⟩
    rw [Nat.add_assoc, hl]
    calc c * (c * up + mid) + c = c * (c * up + (mid + 1)) := by ring
      _ = c * c * (up + 1) := by rw [hm]; ring

theorem abuts_iff (hmid : mid < 2 ^ w) (hlow : low < 2 ^ w) :
    Abuts w n (2 ^ w * (2 ^ w * up + mid) + low) ↔ low + 1 = 2 ^ w ∧
      (mid + 1 = 2 ^ w ∧ 2 ^ w * (2 ^ w * up + mid) + low + 1 < n ∨ w = 1 ∧ mid = 0) := by
  have hhalf : w = 1 ∧ (2 ^ w * (2 ^ w * up + mid) + low) % 4 = 1 ↔
      w = 1 ∧ low + 1 = 2 ^ w ∧ mid = 0 := by
    refine and_congr_right fun hw => ?_
    subst hw
    omega
  rw [Abuts, succ_mod_four_pow hmid hlow, hhalf]
  tauto

section Neighbours

variable (h : s.Spreads slotSize k w)

include h

theorem Spreads.line_ne_within (hmid : mid < 2 ^ w) (hlow : low + 1 < 2 ^ w)
    (hpos : pos.toNat % 2 ^ k = 2 ^ w * (2 ^ w * up + mid) + low) {next : UInt64}
    (hnext : next.toNat % 2 ^ k = pos.toNat % 2 ^ k + 1) :
    line slotSize (s.index pos) ≠ line slotSize (s.index next) := by
  rw [line, line, h.mixes.index_eq h.le hmid (by omega) hpos,
    h.mixes.index_eq h.le hmid hlow (hnext.trans (by rw [hpos, Nat.add_assoc]))]
  refine line_ne_of_le ?_
  have := h.fills
  calc (2 ^ w * (2 ^ w * up + low) + mid) * slotSize + 64
      ≤ (2 ^ w * (2 ^ w * up + low) + mid) * slotSize + 2 ^ w * slotSize := by omega
    _ = (2 ^ w * (2 ^ w * up + (low + 1)) + mid) * slotSize := by ring

theorem Spreads.line_between (hmid : mid + 1 < 2 ^ w) (hlow : low + 1 = 2 ^ w)
    (hpos : pos.toNat % 2 ^ k = 2 ^ w * (2 ^ w * up + mid) + low) {next : UInt64}
    (hnext : next.toNat % 2 ^ k = pos.toNat % 2 ^ k + 1) :
    line slotSize (s.index pos) = line slotSize (s.index next) ↔
      w = 1 ∧ slotSize ≤ (pos.toNat % 2 ^ k + 1) * slotSize % 64 := by
  have hover : next.toNat % 2 ^ k = 2 ^ w * (2 ^ w * up + (mid + 1)) + 0 := by
    rw [hnext, hpos, Nat.add_assoc, hlow]
    ring
  rw [line, line, h.mixes.index_eq h.le (by omega) (by omega) hpos,
    h.mixes.index_eq h.le hmid (by omega) hover]
  rcases Nat.eq_or_lt_of_le h.one_le with rfl | hw
  · obtain ⟨rfl, rfl⟩ : mid = 0 ∧ low = 1 := by omega
    have hsucc : 2 ^ 1 * (2 ^ 1 * up + 1) + 0 = 2 ^ 1 * (2 ^ 1 * up + 0) + (0 + 1) + 1 := by ring
    have hplace : pos.toNat % 2 ^ k + 1 = 2 ^ 1 * (2 ^ 1 * up + 0) + (0 + 1) + 1 := by rw [hpos]
    rw [hplace, hsucc, eq_comm, Shuffle.lineSize, line_succ_eq_iff]
    exact (and_iff_right rfl).symm
  · refine iff_of_false (Ne.symm (line_ne_of_le ?_)) fun hc => by omega
    have hfour : 4 ≤ 2 ^ w := Nat.pow_le_pow_right (by decide : 0 < 2) hw
    have hfar : 64 * 3 ≤ 2 ^ w * slotSize * low := Nat.mul_le_mul h.fills (by omega)
    have hsum : (2 ^ w * (2 ^ w * up + low) + mid) * slotSize + slotSize =
        (2 ^ w * (2 ^ w * up + 0) + (mid + 1)) * slotSize + 2 ^ w * slotSize * low := by ring
    have := h.small
    omega

theorem Spreads.line_after (hmid : mid + 1 = 2 ^ w) (hlow : low + 1 = 2 ^ w)
    (hpos : pos.toNat % 2 ^ k = 2 ^ w * (2 ^ w * up + mid) + low) {next : UInt64}
    (hnext : next.toNat % 2 ^ k = (pos.toNat % 2 ^ k + 1) % 2 ^ k) :
    line slotSize (s.index pos) = line slotSize (s.index next) ↔ pos.toNat % 2 ^ k + 1 < 2 ^ k ∧
      slotSize ≤ (pos.toNat % 2 ^ k + 1) * slotSize % 64 := by
  have hzero : 0 < 2 ^ w := Nat.two_pow_pos w
  have hstay : (s.index pos).toNat = pos.toNat % 2 ^ k := by
    rw [h.mixes.index_eq h.le (by omega) (by omega) hpos, hpos, Nat.succ.inj (hmid.trans hlow.symm)]
  have hgroup : pos.toNat % 2 ^ k + 1 = 2 ^ w * (2 ^ w * (up + 1) + 0) + 0 := by
    rw [hpos, Nat.add_assoc, hlow]
    calc 2 ^ w * (2 ^ w * up + mid) + 2 ^ w = 2 ^ w * (2 ^ w * up + (mid + 1)) := by ring
      _ = 2 ^ w * (2 ^ w * (up + 1) + 0) + 0 := by rw [hmid]; ring
  rcases Nat.lt_or_ge (pos.toNat % 2 ^ k + 1) (2 ^ k) with hlt | hge
  · rw [Nat.mod_eq_of_lt hlt] at hnext
    rw [line, line, hstay, h.mixes.index_eq h.le hzero hzero (hnext.trans hgroup), ← hgroup,
      Shuffle.lineSize, line_succ_eq_iff]
    exact (and_iff_right hlt).symm
  · have hlast : pos.toNat % 2 ^ k + 1 = 2 ^ k :=
      Nat.le_antisymm (Nat.mod_lt _ (Nat.two_pow_pos k)) hge
    have hfirst : next.toNat % 2 ^ k = 2 ^ w * (2 ^ w * 0 + 0) + 0 := by
      rw [hnext, hlast, Nat.mod_self]
      rfl
    rw [line, line, hstay, h.mixes.index_eq h.le hzero hzero hfirst]
    refine iff_of_false (Ne.symm (line_ne_of_le ?_)) fun hc => absurd hc.1 (Nat.not_lt.2 hge)
    have htwo : 2 ≤ 2 ^ w := Nat.pow_le_pow_right (by decide : 0 < 2) h.one_le
    have hfar : 2 * 64 * 1 ≤ 2 ^ w * (2 ^ w * slotSize) * (up + 1) :=
      Nat.mul_le_mul (Nat.mul_le_mul htwo h.fills) up.succ_pos
    have hsum : pos.toNat % 2 ^ k * slotSize + slotSize =
        2 ^ w * (2 ^ w * slotSize) * (up + 1) := by
      rw [← Nat.add_one_mul, hgroup]
      ring
    have := h.small
    omega

theorem Spreads.line_eq_iff (hk : k ≤ 63) (pos : UInt64) :
    line slotSize (s.index pos) = line slotSize (s.index (pos + 1)) ↔
      Abuts w (2 ^ k) (pos.toNat % 2 ^ k) ∧ slotSize ≤ (pos.toNat % 2 ^ k + 1) * slotSize % 64 := by
  have hnext := toNat_succ_mod hk pos
  have hlt := Nat.mod_lt pos.toNat (Nat.two_pow_pos k)
  obtain ⟨up, mid, low, hmid, hlow, hpos⟩ : ∃ up mid low, mid < 2 ^ w ∧ low < 2 ^ w ∧
      pos.toNat % 2 ^ k = 2 ^ w * (2 ^ w * up + mid) + low :=
    ⟨pos.toNat % 2 ^ k / 2 ^ w / 2 ^ w, pos.toNat % 2 ^ k / 2 ^ w % 2 ^ w,
      pos.toNat % 2 ^ k % 2 ^ w, Nat.mod_lt _ (Nat.two_pow_pos w), Nat.mod_lt _ (Nat.two_pow_pos w),
      by rw [Nat.div_add_mod, Nat.div_add_mod]⟩
  have hgroup : (pos.toNat % 2 ^ k + 1) % 4 ^ w = 0 ↔ low + 1 = 2 ^ w ∧ mid + 1 = 2 ^ w :=
    hpos ▸ succ_mod_four_pow hmid hlow
  have habuts : Abuts w (2 ^ k) (pos.toNat % 2 ^ k) ↔ low + 1 = 2 ^ w ∧
      (mid + 1 = 2 ^ w ∧ pos.toNat % 2 ^ k + 1 < 2 ^ k ∨ w = 1 ∧ mid = 0) :=
    hpos ▸ abuts_iff hmid hlow
  -- short of the end of a group the next position is on the same cycle
  have hsame (hend : ¬ (low + 1 = 2 ^ w ∧ mid + 1 = 2 ^ w)) :
      (pos + 1).toNat % 2 ^ k = pos.toNat % 2 ^ k + 1 := by
    refine hnext.trans (Nat.mod_eq_of_lt (Nat.lt_of_le_of_ne hlt fun hlast => hend (hgroup.1 ?_)))
    have hfour : 4 ^ w = 2 ^ (2 * w) := by rw [Nat.pow_mul]
    rw [hlast, hfour]
    exact Nat.mod_eq_zero_of_dvd (Nat.pow_dvd_pow 2 h.le)
  by_cases hlast : low + 1 = 2 ^ w
  · by_cases hend : mid + 1 = 2 ^ w
    · have hside : Abuts w (2 ^ k) (pos.toNat % 2 ^ k) ↔ pos.toNat % 2 ^ k + 1 < 2 ^ k := by
        rw [habuts]
        refine ⟨fun ⟨_, hcase⟩ => hcase.elim And.right fun ⟨hw, hz⟩ => ?_,
          fun hr => ⟨hlast, .inl ⟨hend, hr⟩⟩⟩
        rw [hz, hw] at hend
        cases hend
      rw [hside]
      exact h.line_after hend hlast hpos hnext
    · have hside : Abuts w (2 ^ k) (pos.toNat % 2 ^ k) ↔ w = 1 := by
        rw [habuts]
        refine ⟨fun ⟨_, hcase⟩ => hcase.elim (absurd ·.1 hend) And.left,
          fun hw => ⟨hlast, .inr ⟨hw, ?_⟩⟩⟩
        subst hw
        omega
      rw [hside]
      exact h.line_between (by omega) hlast hpos (hsame fun hc => hend hc.2)
  · exact iff_of_false
      (h.line_ne_within hmid (by omega) hpos (hsame fun hc => hlast hc.1))
      fun hc => hlast (habuts.1 hc.1).1

theorem Spreads.line_ne_of_dvd (hk : k ≤ 63) (hd : 64 ∣ 4 ^ w * slotSize) (pos : UInt64) :
    line slotSize (s.index pos) ≠ line slotSize (s.index (pos + 1)) := by
  intro hline
  obtain ⟨⟨hgroup, -⟩ | ⟨rfl, hhalf⟩, hreach⟩ := (h.line_eq_iff hk pos).1 hline
  · have hend : 64 ∣ (pos.toNat % 2 ^ k + 1) * slotSize :=
      hd.trans (Nat.mul_dvd_mul_right (Nat.dvd_of_mod_eq_zero hgroup) slotSize)
    rw [Nat.mod_eq_zero_of_dvd hend] at hreach
    have := h.fills
    rw [Nat.le_zero.1 hreach] at this
    omega
  · -- a slot of a group of four measures half a line or three quarters
    obtain ⟨t, ht⟩ := hd
    have hsmall := h.small
    have hfills := h.fills
    obtain rfl | rfl : t = 2 ∨ t = 3 := by omega
    · obtain rfl : slotSize = 32 := by omega
      omega
    · obtain rfl : slotSize = 48 := by omega
      omega

end Neighbours

end Shuffle

/-- Neighbours on a shuffled ring share a line where the next slot is the one beside and no line ends
between them, and nowhere else. Where a group of slots fills a whole number of lines, none do. -/
theorem lines_shared {capacity slotSize : UInt64} {k : Nat} (hc : capacity.toNat = 2 ^ k)
    (hwidth : (Shuffle.acrossLines capacity slotSize).width ≠ 0) :
    let s := Shuffle.acrossLines capacity slotSize
    (∀ pos : UInt64, line slotSize.toNat (s.index pos) = line slotSize.toNat (s.index (pos + 1)) ↔
      Abuts s.width.toNat capacity.toNat (pos.toNat % capacity.toNat) ∧
        slotSize.toNat ≤ (pos.toNat % capacity.toNat + 1) * slotSize.toNat % Shuffle.lineSize) ∧
    (Shuffle.lineSize ∣ 4 ^ s.width.toNat * slotSize.toNat → ∀ pos : UInt64,
      line slotSize.toNat (s.index pos) ≠ line slotSize.toNat (s.index (pos + 1))) := by
  have hk := exponent_le hc
  have h := Shuffle.spreads_acrossLines hk hc hwidth
  rw [hc]
  exact ⟨h.line_eq_iff hk, h.line_ne_of_dvd hk⟩

theorem lines_shared_sixteen : (64 : UInt64).toNat = 2 ^ 6 ∧
    (Shuffle.acrossLines 64 16).width ≠ 0 ∧ ∀ pos : UInt64,
      line 16 ((Shuffle.acrossLines 64 16).index pos) ≠
        line 16 ((Shuffle.acrossLines 64 16).index (pos + 1)) := by
  have hwidth : (Shuffle.acrossLines 64 16).width ≠ 0 := by decide +kernel
  have hfills : Shuffle.lineSize ∣ 4 ^ (Shuffle.acrossLines 64 16).width.toNat * 16 := by
    decide +kernel
  exact ⟨by decide, hwidth, (lines_shared (k := 6) (by decide) hwidth).2 hfills⟩

/-- Slots of forty bytes do: the sixth position and the seventh begin on one line. -/
theorem neighbours_share : (8 : UInt64).toNat = 2 ^ 3 ∧ (Shuffle.acrossLines 8 40).width ≠ 0 ∧
    line 40 ((Shuffle.acrossLines 8 40).index 5) =
      line 40 ((Shuffle.acrossLines 8 40).index (5 + 1)) := by
  decide +kernel

end WorkStealing.Ring
