import WorkStealing.Latch.Basic
import Mathlib.Algebra.Order.Ring.Int

namespace WorkStealing.Latch

theorem bmod_eq {z : Int} {k : Nat} (h : 0 ≤ z) (hlt : 2 * z < k) : z.bmod k = z := by
  rw [Int.bmod_eq_of_le] <;> omega

theorem natCast_toNat {k : Nat} {x : BitVec k} (h : 0 ≤ x.toInt) : (x.toNat : Int) = x.toInt := by
  have hlt := x.isLt
  rw [BitVec.toInt_eq_toNat_cond] at h ⊢
  split at h <;> rename_i hc
  · rw [if_pos hc]
  · omega

theorem toInt_counts {n : Int32} (h : 0 ≤ n.toInt) : (counts n).toInt = n.toInt * 2 ^ 32 := by
  have hlt := Int32.toInt_lt n
  have hwide : n.toInt64.toBitVec.toInt = n.toInt := Int32.toInt_toInt64 n
  have hshift : shift.toBitVec.smod 64 = 32#64 := rfl
  change (n.toInt64 <<< shift).toBitVec.toInt = _
  rw [Int64.toBitVec_shiftLeft, hshift, BitVec.shiftLeft_eq', BitVec.toInt_shiftLeft,
    Nat.shiftLeft_eq, Int.natCast_mul, natCast_toNat (hwide ▸ h), hwide]
  exact bmod_eq (Int.mul_nonneg h (by decide)) (by change 2 * (n.toInt * 2 ^ 32) < 2 ^ 64; omega)

/-- The word stands for a counter of `c` and `w` registered waiters. -/
structure Packs (word : Int64) (c w : Nat) : Prop where
  counter_lt : c < 2 ^ 31
  waiters_lt : w < 2 ^ 32
  toInt : word.toInt = c * 2 ^ 32 + w

theorem packs_counts {n : Int32} (h : 0 ≤ n.toInt) : Packs (counts n) n.toInt.toNat 0 where
  counter_lt := by
    have := Int32.toInt_lt n
    omega
  waiters_lt := by decide
  toInt := by
    rw [toInt_counts h]
    omega

namespace Packs

variable {word : Int64} {c w : Nat}

theorem remaining (h : Packs word c w) : (remaining word).toInt = c := by
  obtain ⟨hc, hw, ht⟩ := h
  have hshift : shift.toBitVec.smod 64 = 32#64 := rfl
  have hdiv : (word >>> shift).toInt = c := by
    change (word >>> shift).toBitVec.toInt = _
    rw [Int64.toBitVec_shiftRight, hshift, BitVec.toInt_sshiftRight']
    change word.toInt >>> (32 : Nat) = _
    rw [ht, Int.shiftRight_eq_div_pow]
    omega
  rw [Latch.remaining, Int64.toInt_toInt32, hdiv]
  exact bmod_eq (by omega) (by omega)

theorem registered (h : Packs word c w) : (registered word).toNat = w := by
  obtain ⟨hc, hw, ht⟩ := h
  have hnat : (word.toBitVec.toNat : Int) = word.toInt := by
    refine natCast_toNat ?_
    change 0 ≤ word.toInt
    omega
  rw [Latch.registered, UInt64.toNat_toUInt32]
  change word.toBitVec.toNat % 2 ^ 32 = w
  omega

theorem eq_iff {word' : Int64} {c' w' : Nat} (h : Packs word c w) (h' : Packs word' c' w') :
    word = word' ↔ c = c' ∧ w = w' := by
  obtain ⟨hc, hw, ht⟩ := h
  obtain ⟨hc', hw', ht'⟩ := h'
  rw [← Int64.toInt_inj, ht, ht']
  omega

theorem congr {c' w' : Nat} (h : Packs word c w) (hc : c = c') (hw : w = w') : Packs word c' w' :=
  hc ▸ hw ▸ h

theorem register (h : Packs word c w) (hlt : w + 1 < 2 ^ 32) : Packs (word + 1) c (w + 1) where
  counter_lt := h.counter_lt
  waiters_lt := hlt
  toInt := by
    have hc := h.counter_lt
    rw [Int64.toInt_add, h.toInt]
    change Int.bmod (c * 2 ^ 32 + w + 1) (2 ^ 64) = _
    rw [bmod_eq (by omega) (by omega)]
    omega

theorem unregister (h : Packs word c (w + 1)) : Packs (word - 1) c w where
  counter_lt := h.counter_lt
  waiters_lt := Nat.lt_of_succ_lt h.waiters_lt
  toInt := by
    have hc := h.counter_lt
    have hw := h.waiters_lt
    rw [Int64.toInt_sub, h.toInt]
    change Int.bmod (c * 2 ^ 32 + (w + 1 : Nat) - 1) (2 ^ 64) = _
    rw [bmod_eq (by omega) (by omega)]
    omega

theorem countDown {n : Int32} (h : Packs word c w) (hn : 0 < n.toInt) :
    Packs (countDown word n) (c - n.toInt.toNat) w where
  counter_lt := Nat.lt_of_le_of_lt (Nat.sub_le _ _) h.counter_lt
  waiters_lt := h.waiters_lt
  toInt := by
    obtain ⟨hc, hw, ht⟩ := h
    have hr := Packs.remaining ⟨hc, hw, ht⟩
    have hstep : (counts (if Latch.remaining word < n then Latch.remaining word else n)).toInt =
        (min c n.toInt.toNat : Nat) * 2 ^ 32 := by
      split
      · rename_i hlt
        rw [Int32.lt_iff_toInt_lt, hr] at hlt
        rw [toInt_counts (by omega), hr, Nat.min_eq_left (by omega)]
      · rename_i hlt
        rw [Int32.lt_iff_toInt_lt, hr] at hlt
        rw [toInt_counts (by omega), Nat.min_eq_right (by omega)]
        omega
    rw [Latch.countDown, Int64.toInt_sub, ht, hstep, bmod_eq (by omega) (by omega)]
    omega

end Packs

end WorkStealing.Latch
