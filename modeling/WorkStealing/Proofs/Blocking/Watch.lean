import WorkStealing.Proofs.Gate.Balance
import Mathlib.Algebra.Group.Pi.Basic
import Mathlib.Algebra.Order.Ring.Nat

/-!
The balance that keeps consumers from sleeping over a queue: how many threads are where, against the
length of the queue and the numbers of its gate. While the queue is open, what it holds for those
past their last look is outweighed by producers that have yet to see them, by permits, and by
consumers that will look again. Once it is closed and all have been told, permits outweigh the
sleepers.
-/

namespace WorkStealing.Blocking

/-- Where a thread may be. The last six are counted as sleepers. -/
inductive Role where
  | looking
  | closing
  | adding
  | owed
  | hungry
  | rechecking
  | doubting
  | leaving
  | committed
  | acquiring
  | waking
  deriving DecidableEq

open Role

/-- `lucid` if whoever looked for the last time could see all there was. -/
structure Watch (lucid : Prop) (closed : Bool) (len sleepers permits : Nat) (count : Int)
    (m : Role → Nat) : Prop where
  sleepers : sleepers = m rechecking + m doubting + m leaving + m committed + m acquiring + m waking
  parked : m acquiring = permits + m owed + (-count).toNat
  noticed : lucid → closed = false → 0 < m doubting + m committed + m acquiring →
    (len : Int) ≤ m looking + m hungry + m rechecking + m waking + (m adding + count + m acquiring)
  dismissed : closed = true → m closing = 0 →
    (m committed + m acquiring : Int) ≤ m adding + count + m acquiring

namespace Watch

variable {lucid : Prop} {closed : Bool} {len sleepers permits n : Nat} {count : Int}
  {m : Role → Nat}

section Consumers

theorem arrive (h : Watch lucid closed len sleepers permits count m) :
    Watch lucid closed len sleepers permits count (Pi.single hungry 1 + m) := by
  obtain ⟨h1, h2, h3, h4⟩ := h
  refine ⟨?_, ?_, fun hl hc => ?_, fun hc => ?_⟩ <;> simp
  · omega
  · omega
  · have := h3 hl hc; omega
  · have := h4 hc; omega

theorem feed (h : Watch lucid closed (len + 1) sleepers permits count (Pi.single hungry 1 + m)) :
    Watch lucid closed len sleepers permits count m := by
  obtain ⟨h1, h2, h3, h4⟩ := h
  simp at h1 h2 h3 h4
  refine ⟨by omega, by omega, fun hl hc => ?_, fun hc => ?_⟩
  · have := h3 hl hc; omega
  · have := h4 hc; omega

theorem shrink (h : Watch lucid closed (len + 1) sleepers permits count m) :
    Watch lucid closed len sleepers permits count m := by
  obtain ⟨h1, h2, h3, h4⟩ := h
  refine ⟨h1, h2, fun hl hc => ?_, h4⟩
  have := h3 hl hc
  omega

theorem give_up (h : Watch lucid true len sleepers permits count (Pi.single hungry 1 + m)) :
    Watch lucid true len sleepers permits count m := by
  obtain ⟨h1, h2, h3, h4⟩ := h
  simp at h1 h2 h4
  exact ⟨by omega, by omega, by simp, fun _ => by omega⟩

theorem declare (h : Watch lucid closed len sleepers permits count (Pi.single hungry 1 + m)) :
    Watch lucid closed len (sleepers + 1) permits count (Pi.single rechecking 1 + m) := by
  obtain ⟨h1, h2, h3, h4⟩ := h
  simp at h1 h2 h3 h4
  refine ⟨?_, ?_, fun hl hc => ?_, fun hc => ?_⟩ <;> simp
  · omega
  · omega
  · have := h3 hl hc; omega
  · have := h4 hc; omega

theorem find (h : Watch lucid closed (len + 1) sleepers permits count (Pi.single rechecking 1 + m)) :
    Watch lucid closed len sleepers permits count (Pi.single leaving 1 + m) := by
  obtain ⟨h1, h2, h3, h4⟩ := h
  simp at h1 h2 h3 h4
  refine ⟨?_, ?_, fun hl hc => ?_, fun hc => ?_⟩ <;> simp
  · omega
  · omega
  · have := h3 hl hc; omega
  · have := h4 hc; omega

theorem miss (h : Watch lucid closed len sleepers permits count (Pi.single rechecking 1 + m))
    (hz : lucid → len = 0) :
    Watch lucid closed len sleepers permits count (Pi.single doubting 1 + m) := by
  obtain ⟨h1, h2, h3, h4⟩ := h
  simp at h1 h2 h3 h4
  refine ⟨?_, ?_, fun hl hc => ?_, fun hc => ?_⟩ <;> simp
  · omega
  · omega
  · have := hz hl; omega
  · have := h4 hc; omega

theorem turn_back (h : Watch lucid true len sleepers permits count (Pi.single doubting 1 + m)) :
    Watch lucid true len sleepers permits count (Pi.single leaving 1 + m) := by
  obtain ⟨h1, h2, h3, h4⟩ := h
  simp at h1 h2 h4
  refine ⟨?_, ?_, by simp, fun _ => ?_⟩ <;> simp
  · omega
  · omega
  · omega

theorem commit (h : Watch lucid false len sleepers permits count (Pi.single doubting 1 + m)) :
    Watch lucid false len sleepers permits count (Pi.single committed 1 + m) := by
  obtain ⟨h1, h2, h3, h4⟩ := h
  simp at h1 h2 h3
  refine ⟨?_, ?_, fun hl _ => ?_, by simp⟩ <;> simp
  · omega
  · omega
  · have := h3 hl; omega

theorem leave (h : Watch lucid closed len sleepers permits count (Pi.single leaving 1 + m)) :
    Watch lucid closed len (sleepers - 1) permits count m := by
  obtain ⟨h1, h2, h3, h4⟩ := h
  simp at h1 h2 h3 h4
  refine ⟨by omega, by omega, fun hl hc => ?_, fun hc => ?_⟩
  · have := h3 hl hc; omega
  · have := h4 hc; omega

theorem wake (h : Watch lucid closed len sleepers permits count (Pi.single waking 1 + m)) :
    Watch lucid closed len (sleepers - 1) permits count (Pi.single hungry 1 + m) := by
  obtain ⟨h1, h2, h3, h4⟩ := h
  simp at h1 h2 h3 h4
  refine ⟨?_, ?_, fun hl hc => ?_, fun hc => ?_⟩ <;> simp
  · omega
  · omega
  · have := h3 hl hc; omega
  · have := h4 hc; omega

end Consumers

section Semaphore

theorem pass (h : Watch lucid closed len sleepers permits count (Pi.single committed 1 + m))
    (hz : 0 < count) :
    Watch lucid closed len sleepers permits (count - 1) (Pi.single waking 1 + m) := by
  obtain ⟨h1, h2, h3, h4⟩ := h
  simp at h1 h2 h3 h4
  refine ⟨?_, ?_, fun hl hc => ?_, fun hc => ?_⟩ <;> simp
  · omega
  · omega
  · have := h3 hl hc; omega
  · have := h4 hc; omega

theorem sink (h : Watch lucid closed len sleepers permits count (Pi.single committed 1 + m))
    (hz : count ≤ 0) :
    Watch lucid closed len sleepers permits (count - 1) (Pi.single acquiring 1 + m) := by
  obtain ⟨h1, h2, h3, h4⟩ := h
  simp at h1 h2 h3 h4
  refine ⟨?_, ?_, fun hl hc => ?_, fun hc => ?_⟩ <;> simp
  · omega
  · omega
  · have := h3 hl hc; omega
  · have := h4 hc; omega

theorem acquire (h : Watch lucid closed len sleepers (permits + 1) count (Pi.single acquiring 1 + m)) :
    Watch lucid closed len sleepers permits count (Pi.single waking 1 + m) := by
  obtain ⟨h1, h2, h3, h4⟩ := h
  simp at h1 h2 h3 h4
  refine ⟨?_, ?_, fun hl hc => ?_, fun hc => ?_⟩ <;> simp
  · omega
  · omega
  · have := h3 hl hc; omega
  · have := h4 hc; omega

theorem add (h : Watch lucid closed len sleepers permits count (Pi.single adding n + m))
    (hz : 0 ≤ count) : Watch lucid closed len sleepers permits (count + n) m := by
  obtain ⟨h1, h2, h3, h4⟩ := h
  simp at h1 h2 h3 h4
  refine ⟨by omega, by omega, fun hl hc => ?_, fun hc => ?_⟩
  · have := h3 hl hc; omega
  · have := h4 hc; omega

theorem owe (h : Watch lucid closed len sleepers permits count (Pi.single adding n + m))
    (hz : count < 0) : Watch lucid closed len sleepers permits (count + n)
      (Pi.single owed (min count.natAbs n) + m) := by
  obtain ⟨h1, h2, h3, h4⟩ := h
  simp at h1 h2 h3 h4
  refine ⟨?_, ?_, fun hl hc => ?_, fun hc => ?_⟩ <;> simp
  · omega
  · omega
  · have := h3 hl hc; omega
  · have := h4 hc; omega

theorem release (h : Watch lucid closed len sleepers permits count (Pi.single owed n + m)) :
    Watch lucid closed len sleepers (permits + n) count m := by
  obtain ⟨h1, h2, h3, h4⟩ := h
  simp at h1 h2 h3 h4
  refine ⟨by omega, by omega, fun hl hc => ?_, fun hc => ?_⟩
  · have := h3 hl hc; omega
  · have := h4 hc; omega

end Semaphore

section Producers

theorem push (h : Watch lucid closed len sleepers permits count m) :
    Watch lucid closed (len + 1) sleepers permits count (Pi.single looking 1 + m) := by
  obtain ⟨h1, h2, h3, h4⟩ := h
  refine ⟨?_, ?_, fun hl hc => ?_, fun hc => ?_⟩ <;> simp
  · omega
  · omega
  · have := h3 hl hc; omega
  · have := h4 hc; omega

theorem look_none (h : Watch lucid closed len sleepers permits count (Pi.single looking 1 + m))
    (hs : sleepers = 0) : Watch lucid closed len sleepers permits count m := by
  obtain ⟨h1, h2, h3, h4⟩ := h
  simp at h1 h2 h3 h4
  refine ⟨by omega, by omega, fun hl hc => ?_, fun hc => ?_⟩
  · have := h3 hl hc; omega
  · have := h4 hc; omega

theorem look_some (h : Watch lucid closed len sleepers permits count (Pi.single looking 1 + m)) :
    Watch lucid closed len sleepers permits count (Pi.single adding 1 + m) := by
  obtain ⟨h1, h2, h3, h4⟩ := h
  simp at h1 h2 h3 h4
  refine ⟨?_, ?_, fun hl hc => ?_, fun hc => ?_⟩ <;> simp
  · omega
  · omega
  · have := h3 hl hc; omega
  · have := h4 hc; omega

theorem close (h : Watch lucid closed len sleepers permits count m) :
    Watch lucid true len sleepers permits count (Pi.single closing 1 + m) := by
  obtain ⟨h1, h2, h3, h4⟩ := h
  refine ⟨?_, ?_, by simp, fun _ => ?_⟩ <;> simp
  · omega
  · omega

theorem dismiss (h : Watch lucid closed len sleepers permits count (Pi.single closing 1 + m)) :
    Watch lucid closed len sleepers permits count (Pi.single adding sleepers + m) := by
  obtain ⟨h1, h2, h3, h4⟩ := h
  simp at h1 h2 h3
  refine ⟨?_, ?_, fun hl hc => ?_, fun hc => ?_⟩ <;> simp
  · omega
  · omega
  · have := h3 hl hc; omega
  · omega

end Producers

end Watch

end WorkStealing.Blocking
