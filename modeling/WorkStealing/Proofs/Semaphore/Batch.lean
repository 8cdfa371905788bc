import WorkStealing.Proofs.Gate.Account
import WorkStealing.Proofs.Semaphore.Conserve

namespace WorkStealing

def Machine.runAll {S C P R : Type} (m : Machine S C P R) (budget : Nat) :
    S → List C → Option (S × List R)
  | s, [] => some (s, [])
  | s, c :: cs => (m.run budget s c).bind fun (t, r) =>
    (m.runAll budget t cs).map (Prod.map id (r :: ·))

theorem Machine.runAll_cons {S C P R : Type} {m : Machine S C P R} {budget : Nat} {s t u : S}
    {c : C} {cs : List C} {r : R} {rs : List R} (h : m.run budget s c = some (t, r))
    (hs : m.runAll budget t cs = some (u, rs)) :
    m.runAll budget s (c :: cs) = some (u, r :: rs) := by
  simp [runAll, h, hs]

namespace Semaphore

/-- With `n` permits more, as many of them handed to waiters as the count had waiting. -/
def posted (s : Semaphore) (n : Nat) : Semaphore :=
  ⟨s.count + .ofNat n, s.permits + min (-s.count.toInt).toNat n⟩

variable {s : Semaphore}

theorem posted_zero (s : Semaphore) : s.posted 0 = s := by
  simp [posted]

theorem toInt_posted {n : Nat} (h : s.count.toInt + n ≤ largestPost) :
    (s.posted n).count.toInt = s.count.toInt + n := by
  have hlow := Int64.le_toInt s.count
  refine toInt_add ⟨by omega, ?_⟩
  simp only [largestPost] at h
  omega

theorem posted_posted {a b : Nat} (h : s.count.toInt + (a + b : Nat) ≤ largestPost) :
    (s.posted a).posted b = s.posted (a + b) := by
  have hcount := toInt_posted (s := s) (n := a) (by omega)
  rw [posted, hcount]
  simp only [posted, Int64.ofNat_add, Int64.add_assoc, Semaphore.mk.injEq, true_and]
  omega

theorem posted_of_neg (h : s.count < 0) (n : Nat) :
    s.posted n = ⟨s.count + .ofNat n, s.permits + min s.count.toInt.natAbs n⟩ := by
  rw [Int64.lt_iff_toInt_lt, Int64.toInt_zero] at h
  have habs : (-s.count.toInt).toNat = s.count.toInt.natAbs := by omega
  rw [posted, habs]

theorem posted_of_nonneg (h : ¬ s.count < 0) (n : Nat) :
    s.posted n = { s with count := s.count + .ofNat n } := by
  rw [Int64.lt_iff_toInt_lt, Int64.toInt_zero] at h
  have hnone : (-s.count.toInt).toNat = 0 := by omega
  rw [posted, hnone, Nat.zero_min, Nat.add_zero]

end Semaphore

namespace Parking

open Semaphore (Call Reply largestPost)

theorem runFrom_adding (k : Parking) (n : Nat) : ∃ t : Parking,
    calls.runFrom 2 k (.awake (.post (.add n))) = some (t, .posted) ∧
      t.semaphore = k.semaphore.posted n := by
  by_cases hneg : k.semaphore.count < 0
  · let owed := min k.semaphore.count.toInt.natAbs n
    let added : Parking := { k with semaphore.count := k.semaphore.count + .ofNat n }
    let released : Parking :=
      { added.rouse owed with semaphore.permits := added.semaphore.permits + owed }
    have hadd : calls.moves k (.awake (.post (.add n))) =
        [.go added (.awake (.post (.release owed)))] := by
      simp only [calls, Point.moves, awaken, Semaphore.Point.moves, Semaphore.Post.moves,
        if_pos hneg]
      rfl
    have hrelease : calls.moves added (.awake (.post (.release owed))) =
        [.done released .posted] := by
      simp [calls, Point.moves, awaken, Semaphore.Point.moves, Semaphore.Post.moves, Move.embed,
        released]
    refine ⟨released, by simp only [Machine.runFrom, hadd, hrelease], ?_⟩
    simp only [released, rouse_semaphore, Semaphore.posted_of_neg hneg, added, owed]
  · have hadd : calls.moves k (.awake (.post (.add n))) =
        [.done { k with semaphore := k.semaphore.posted n } .posted] := by
      simp only [calls, Point.moves, awaken, Semaphore.Point.moves, Semaphore.Post.moves,
        if_neg hneg, Semaphore.posted_of_nonneg hneg]
      rfl
    exact ⟨{ k with semaphore := k.semaphore.posted n },
      by simp only [Machine.runFrom, hadd], rfl⟩

def Posts (k : Parking) (cs : List Call) (s : Semaphore) : Prop :=
  ∃ t, calls.runAll 3 k cs = some (t, List.replicate cs.length .posted) ∧ t.semaphore = s

variable {k : Parking} {n : Nat}

theorem Posts.cons {c : Call} {cs : List Call} {t : Parking} {s : Semaphore}
    (h : calls.run 3 k c = some (t, .posted)) (hs : Posts t cs s) : Posts k (c :: cs) s := by
  obtain ⟨u, hu, rfl⟩ := hs
  exact ⟨u, Machine.runAll_cons h hu, rfl⟩

theorem run_post (k : Parking) : ∃ t : Parking,
    calls.run 3 k .post = some (t, .posted) ∧ t.semaphore = k.semaphore.posted 1 := by
  obtain ⟨t, ht, hs⟩ := runFrom_adding k 1
  exact ⟨t, Machine.runFrom_add _ 1 ht, hs⟩

theorem run_postMany (k : Parking) (hn : n ≤ largestPost) : ∃ t : Parking,
    calls.run 3 k (.postMany n) = some (t, .posted) ∧ t.semaphore = k.semaphore.posted n := by
  have hoffer : calls.moves k (.awake (.offer n)) =
      if n = 0 then [.done k .posted] else [.go k (.awake (.post (.add n)))] := by
    simp only [calls, Point.moves, awaken, Semaphore.Point.moves, if_neg (Nat.not_lt.2 hn)]
    split <;> rfl
  rcases Nat.eq_zero_or_pos n with rfl | hpos
  · exact ⟨k, by simp only [Machine.run, calls, Semaphore.Call.enter]; rfl, by
      rw [Semaphore.posted_zero]⟩
  · obtain ⟨t, ht, hs⟩ := runFrom_adding k n
    refine ⟨t, ?_, hs⟩
    rw [if_neg (by omega)] at hoffer
    rw [← ht]
    simp only [Machine.run, Machine.runFrom, calls, Semaphore.Call.enter] at hoffer ⊢
    rw [hoffer]

theorem run_postMany_overflow (k : Parking) (hn : largestPost < n) :
    calls.run 3 k (.postMany n) = some (k, .overflow n) := by
  have hoffer : calls.moves k (.awake (.offer n)) = [.done k (.overflow n)] := by
    simp only [calls, Point.moves, awaken, Semaphore.Point.moves, if_pos hn]
    rw [if_neg (by simp only [largestPost] at hn; omega)]
    rfl
  change calls.runFrom 3 k (.awake (.offer n)) = _
  simp only [Machine.runFrom, hoffer]

theorem posts_replicate (h : k.semaphore.count.toInt + n ≤ largestPost) :
    Posts k (List.replicate n .post) (k.semaphore.posted n) := by
  induction n generalizing k with
  | zero => exact ⟨k, rfl, (Semaphore.posted_zero _).symm⟩
  | succ n ih =>
    obtain ⟨t, ht, hs⟩ := run_post k
    have hcount := Semaphore.toInt_posted (s := k.semaphore) (n := 1) (by omega)
    rw [List.replicate_succ, Nat.add_comm n 1, ← Semaphore.posted_posted (by omega), ← hs]
    exact .cons ht (ih (by rw [hs, hcount]; omega))

theorem posts_parts {a b : Nat} (hn : a + b ≤ largestPost)
    (h : k.semaphore.count.toInt + (a + b : Nat) ≤ largestPost) :
    Posts k [.postMany a, .postMany b] (k.semaphore.posted (a + b)) := by
  obtain ⟨t, ht, hs⟩ := run_postMany (n := a) k (by omega)
  obtain ⟨u, hu, hs'⟩ := run_postMany (n := b) t (by omega)
  rw [← Semaphore.posted_posted h, ← hs, ← hs']
  exact .cons ht (.cons hu ⟨u, rfl, rfl⟩)

end Parking

namespace Gate

open Semaphore (largestPost)

variable {α : Type} {g : Gate} {n : Nat}

theorem runFrom_adding (α : Type) (g : Gate) (answer n : Nat) :
    (calls α).runFrom 2 g (.notify (.post answer (.add n))) =
      some (g.setSemaphore (g.semaphore.posted n), .posted answer) := by
  by_cases hneg : g.semaphore.count < 0
  · let added : Gate := g.setSemaphore { g.semaphore with count := g.semaphore.count + .ofNat n }
    let owed := min g.semaphore.count.toInt.natAbs n
    have hadd : (calls α).moves g (.notify (.post answer (.add n))) =
        [.go added (.notify (.post answer (.release owed)))] := by
      simp only [calls, Point.moves, Notify.moves, Semaphore.Post.moves, if_pos hneg]
      rfl
    have hrelease : (calls α).moves added (.notify (.post answer (.release owed))) =
        [.done (g.setSemaphore (g.semaphore.posted n)) (.posted answer)] := by
      rw [Semaphore.posted_of_neg hneg]
      rfl
    simp only [Machine.runFrom, hadd, hrelease]
  · have hadd : (calls α).moves g (.notify (.post answer (.add n))) =
        [.done (g.setSemaphore (g.semaphore.posted n)) (.posted answer)] := by
      simp only [calls, Point.moves, Notify.moves, Semaphore.Post.moves, if_neg hneg,
        Semaphore.posted_of_nonneg hneg]
      rfl
    simp only [Machine.runFrom, hadd]

theorem setSemaphore_self (g : Gate) : g.setSemaphore g.semaphore = g := rfl

theorem run_look (α : Type) (g : Gate) (limit : Nat) :
    (calls α).run 3 g (.notify (.look limit)) =
      some (g.setSemaphore (g.semaphore.posted (min g.sleepers limit)),
        .posted (min g.sleepers limit)) := by
  change (calls α).runFrom 3 g (.notify (.look limit)) = _
  cases h : min g.sleepers limit with
  | zero =>
    simp only [Machine.runFrom, moves_look_none h, Semaphore.posted_zero, setSemaphore_self]
  | succ n =>
    rw [Machine.runFrom, moves_look_some h]
    exact runFrom_adding α g (n + 1) (n + 1)

theorem runAll_always (h : g.semaphore.count.toInt + n ≤ largestPost) :
    (calls α).runAll 3 g (List.replicate n (.notify .always)) =
      some (g.setSemaphore (g.semaphore.posted n), List.replicate n (.posted 1)) := by
  induction n generalizing g with
  | zero => rw [Semaphore.posted_zero]; rfl
  | succ n ih =>
    have hcount := Semaphore.toInt_posted (s := g.semaphore) (n := 1) (by omega)
    rw [Nat.add_comm n 1, ← Semaphore.posted_posted (by omega), Nat.add_comm 1 n]
    exact Machine.runAll_cons (Machine.runFrom_add _ 1 (runFrom_adding α g 1 1))
      (ih (g := g.setSemaphore (g.semaphore.posted 1)) (by
        simp only [setSemaphore]
        omega))

end Gate

namespace Parking

open Semaphore (Call Reply largestPost)

theorem posts_agree {k : Parking} {n : Nat} (hn : n ≤ largestPost)
    (h : k.semaphore.count.toInt + n ≤ largestPost) :
    Posts k [.postMany n] (k.semaphore.posted n) ∧
      Posts k (List.replicate n .post) (k.semaphore.posted n) ∧
      (∀ a b, a + b = n → Posts k [.postMany a, .postMany b] (k.semaphore.posted n)) ∧
      (∀ m, largestPost < m → calls.run 3 k (.postMany m) = some (k, .overflow m) ∧
        (Reply.overflow m).panic? =
          some s!"semaphore post of {m} permits overflows the count") ∧
      ∀ (α : Type) (g : Gate) (limit : Nat), g.semaphore = k.semaphore →
        min g.sleepers limit = n →
        (Gate.calls α).run 3 g (.notify (.look limit)) =
            some (g.setSemaphore (g.semaphore.posted n), .posted n) ∧
          (Gate.calls α).runAll 3 g (List.replicate n (.notify .always)) =
            some (g.setSemaphore (g.semaphore.posted n), List.replicate n (.posted 1)) := by
  refine ⟨?_, posts_replicate h, ?_, fun m hm => ⟨run_postMany_overflow k hm, rfl⟩, ?_⟩
  · obtain ⟨t, ht, hs⟩ := run_postMany k hn
    exact .cons ht ⟨t, rfl, hs⟩
  · rintro a b rfl
    exact posts_parts hn h
  · rintro α g limit hg rfl
    exact ⟨Gate.run_look α g limit, Gate.runAll_always (hg ▸ h)⟩

/-- With two waiting, five permits bring the count above zero whichever way they are posted. -/
theorem posts_agree_crossing : 5 ≤ largestPost ∧ (-2 : Int64).toInt + (5 : Nat) ≤ largestPost ∧
    Posts ⟨⟨-2, 0⟩, 2, 0⟩ [.postMany 5] ⟨3, 2⟩ ∧
    Posts ⟨⟨-2, 0⟩, 2, 0⟩ [.post, .post, .post, .post, .post] ⟨3, 2⟩ ∧
    Posts ⟨⟨-2, 0⟩, 2, 0⟩ [.postMany 1, .postMany 4] ⟨3, 2⟩ := by
  have hn : 5 ≤ largestPost := by decide
  have hc : (-2 : Int64).toInt + (5 : Nat) ≤ largestPost := by decide
  have hposted : (⟨-2, 0⟩ : Semaphore).posted 5 = ⟨3, 2⟩ := by decide
  obtain ⟨hbatch, hsingle, hparts, -⟩ := posts_agree (k := ⟨⟨-2, 0⟩, 2, 0⟩) hn hc
  rw [hposted] at hbatch hsingle hparts
  exact ⟨hn, hc, hbatch, hsingle, hparts 1 4 rfl⟩

/-- With one waiting, the count has room for one permit more than a post may bring: one after
another they are all posted, and at once none of them. -/
theorem overflow_at_once :
    Crew.Reachable calls (fun _ _ => True) ⟨⟨.ofPermits 0, 0, 0⟩, []⟩
        ⟨⟨⟨-1, 0⟩, 1, 0⟩, [.running .wait .parked]⟩ ∧
      (-1 : Int64).toInt + (2 ^ 63 : Nat) ≤ largestPost ∧
      calls.run 3 ⟨⟨-1, 0⟩, 1, 0⟩ (.postMany (2 ^ 63)) =
        some (⟨⟨-1, 0⟩, 1, 0⟩, .overflow (2 ^ 63)) ∧
      (Reply.overflow (2 ^ 63)).panic? =
        some "semaphore post of 9223372036854775808 permits overflows the count" ∧
      Posts ⟨⟨-1, 0⟩, 1, 0⟩ (List.replicate (2 ^ 63) .post) ⟨0x7fffffffffffffff, 1⟩ := by
  have hc : (-1 : Int64).toInt + (2 ^ 63 : Nat) ≤ largestPost := by decide
  have hposted : (⟨-1, 0⟩ : Semaphore).posted (2 ^ 63) = ⟨0x7fffffffffffffff, 1⟩ := by decide
  have hplay : (Crew.play calls (fun _ _ => true) [.start .wait, .move 0 0, .move 0 0] []
      ⟨⟨.ofPermits 0, 0, 0⟩, []⟩).map Prod.snd =
      some ⟨⟨⟨-1, 0⟩, 1, 0⟩, [.running .wait .parked]⟩ := by rfl
  obtain ⟨log, k, hrun, rfl⟩ := Crew.exists_run_of_play (fun _ _ _ => trivial) hplay
  refine ⟨hrun.reachable, hc, run_postMany_overflow _ (by decide), by rfl, ?_⟩
  rw [← hposted]
  exact posts_replicate (k := ⟨⟨-1, 0⟩, 1, 0⟩) hc

end Parking

end WorkStealing
