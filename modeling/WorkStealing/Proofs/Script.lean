import WorkStealing.Blocking.Script
import WorkStealing.Crew.Script
import WorkStealing.Pool.Script
import WorkStealing.Proofs.Crew.Alone
import WorkStealing.Proofs.Crew.Lone
import WorkStealing.Proofs.Pool.History

namespace WorkStealing

namespace Crew

variable {S C P R A : Type} {m : Machine S C P R} {allowed : Crew S C P R → C → Prop}
  {first j k l : Crew S C P R} {c : C}

theorem Quiet.eq_of_reachable (hq : Quiet m k) (h : Reachable m (fun _ _ => False) k l) : l = k := by
  induction h with
  | refl => rfl
  | step _ hs ih =>
    subst ih
    cases hs with
    | start _ _ hc => exact hc.elim
    | move s before after c p a ha =>
      have hnone : m.moves s p = [] := hq c p (by simp)
      exact absurd ha (hnone ▸ List.not_mem_nil)

theorem ComesTo.settle_eq (h : ComesTo m k l) {n : Nat} (hq : Quiet m (k.settle m n)) :
    k.settle m n = l :=
  (hq.eq_of_reachable (h.2 _ (reachable_settle n .refl))).symm

theorem reaches_of_runFrom {n : Nat} {s t : S} {p : P} {r : R}
    (h : m.runFrom n s p = some (t, r)) : Reaches m.moves (.go s p) (.done t r) := by
  induction n generalizing s p with
  | zero => cases h
  | succ n ih =>
    rw [Machine.runFrom] at h
    split at h
    · rename_i hmoves
      exact .step (by simp [hmoves]) (ih h)
    · rename_i hmoves
      cases h
      exact .single (by simp [hmoves])
    · cases h

def Command.made : Command C → C
  | .call c | .send _ c => c

/-- A run comes to this, but for the calls that have returned. -/
def Follows (m : Machine S C P R) (allowed : Crew S C P R → C → Prop) (first k : Crew S C P R) :
    Prop :=
  ∃ log j, Run m allowed first log j ∧ j.dismiss = k.dismiss

theorem dismiss_eq (hs : k.state = l.state)
    (ht : k.threads.filter Thread.isRunning = l.threads.filter Thread.isRunning) :
    k.dismiss = l.dismiss := by
  rw [dismiss, dismiss, hs, ht]

theorem dismiss_dismiss (k : Crew S C P R) : k.dismiss.dismiss = k.dismiss := by
  simp [dismiss]

namespace Follows

theorem of_run {log : List (Entry S C P R)} (h : Run m allowed first log k) :
    Follows m allowed first k := ⟨log, k, h, rfl⟩

theorem congr (h : Follows m allowed first k) (he : k.dismiss = l.dismiss) :
    Follows m allowed first l := by
  obtain ⟨log, j, hr, hj⟩ := h
  exact ⟨log, j, hr, hj.trans he⟩

theorem start (h : Follows m allowed first k) (hc : ∀ j, allowed j c) :
    Follows m allowed first (k.start m c) := by
  obtain ⟨log, j, hr, hj⟩ := h
  obtain ⟨hs, ht⟩ := Crew.mk.inj hj
  refine ⟨log, j.start m c, hr.start c (hc j), dismiss_eq hs ?_⟩
  rw [Crew.start, Crew.start, List.filter_append, List.filter_append, ht]

theorem step (h : Follows m allowed first k) (hs : Step m (fun _ _ => False) k l) :
    Follows m allowed first l := by
  obtain ⟨log, ⟨t, threads⟩, hr, hj⟩ := h
  cases hs with
  | start _ _ hc => exact hc.elim
  | move s before after c p a ha =>
    obtain ⟨rfl, hthreads⟩ := Crew.mk.inj hj
    rw [List.filter_append, List.filter_cons_of_pos rfl] at hthreads
    obtain ⟨before', rest, rfl, hbefore, hrest⟩ := List.filter_eq_append_iff.1 hthreads
    obtain ⟨idle, after', rfl, hidle, -, hafter⟩ := List.filter_eq_cons_iff.1 hrest
    rw [← List.append_assoc] at hr
    refine ⟨_, _, hr.move ha, dismiss_eq rfl ?_⟩
    simp only [List.filter_append, List.filter_cons, hbefore, hafter,
      List.filter_eq_nil_iff.2 hidle, List.append_nil]

theorem reachable (h : Follows m allowed first k) (hr : Reachable m (fun _ _ => False) k l) :
    Follows m allowed first l := by
  induction hr with
  | refl => exact h
  | step _ hs ih => exact ih.step hs

theorem settle (h : Follows m allowed first k) (n : Nat) :
    Follows m allowed first (k.settle m n) := h.reachable (reachable_settle n .refl)

theorem call (h : Follows m allowed first k) (hc : ∀ j, allowed j c) (n : Nat) :
    Follows m allowed first (k.call m n c).1 := by
  rw [Crew.call]
  split
  · rename_i s r hrun
    have hreach : Reachable m (fun _ _ => False) (k.start m c)
        (withMove k.threads [] c (.done s r)) :=
      reachable_withMove (reaches_of_runFrom hrun) .refl
    refine ((h.start hc).reachable hreach).congr (dismiss_eq rfl ?_)
    simp [withMove, Move.land, Thread.isRunning]
  · exact h

theorem startMany (h : Follows m allowed first k) (hc : ∀ j, allowed j c) (n : Nat) :
    Follows m allowed first (k.startMany m n c) := by
  rw [Crew.startMany, ← List.map_replicate (f := fun c => Thread.running c (m.enter c)),
    ← foldl_start]
  induction n generalizing k with
  | zero => exact h
  | succ n ih => exact ih (h.start hc)

theorem obey {c : Command C} (h : Follows m allowed first k) (hc : ∀ j, allowed j c.made) :
    Follows m allowed first (obey m k c).1 := by
  cases c with
  | call c => exact (h.call hc _).settle _
  | send n c => exact (h.startMany hc n).settle _

theorem callPerBlocked (h : Follows m allowed first k) (hc : ∀ j, allowed j c) :
    Follows m allowed first (k.callPerBlocked m c) := by
  refine Follows.settle ?_ _
  induction k.blocked with
  | zero => exact h
  | succ n ih => exact ih.call hc _

end Follows

theorem follow_follows {observe : Crew S C P R → Option R → A} {cs : List (Command C)}
    (h : Follows m allowed first k) (hc : ∀ j, ∀ c ∈ cs, allowed j c.made) :
    Follows m allowed first (follow m observe k cs).1 := by
  induction cs generalizing k with
  | nil => exact h
  | cons c cs ih =>
    exact ih (h.obey fun j => hc j c List.mem_cons_self) fun j d hd =>
      hc j d (List.mem_cons_of_mem c hd)

end Crew

namespace Blocking

open Crew (Follows)

variable {Q α E D : Type} [Queue Q α E D] {spins : Nat} {first k : Threads Q α E D}

namespace Script

theorem follows_callAll (h : Follows (calls spins) (fun _ _ => True) first k) (cs : List (Call α)) :
    Follows (calls spins) (fun _ _ => True) first (callAll spins k cs).1 := by
  induction cs generalizing k with
  | nil => exact h
  | cons c cs ih => exact ih (h.call (fun _ => trivial) _)

variable [Holding Q α]

theorem follows_obey (h : Follows (calls spins) (fun _ _ => True) first k) (c : Command α) :
    Follows (calls spins) (fun _ _ => True) first (obey spins k c).1 := by
  cases c with
  | burst vs => exact follows_callAll h _
  | consume n => exact h.startMany (fun _ => trivial) n
  | dequeue =>
    rw [obey]
    split
    · exact h
    · exact h.call (fun _ => trivial) _
  | _ => exact h.call (fun _ => trivial) _

theorem follows_run (h : Follows (calls spins) (fun _ _ => True) first k) (cs : List (Command α)) :
    Follows (calls spins) (fun _ _ => True) first (run spins k cs).1 := by
  induction cs generalizing k with
  | nil => exact h
  | cons c cs ih => exact ih (((follows_obey h c).settle _).congr (Crew.dismiss_dismiss _).symm)

end Script

end Blocking

namespace Pool

open Crew (Follows)

variable {ι α : Type} [BEq ι] {p : Rings ι α}

theorem run_works (p : Rings ι α) {n : Nat} (hn : n ≤ p.size) :
    Crew.Run calls (fun k c => Serves p.size k c) ⟨p, []⟩ []
      ((List.range n).foldl (fun k i => k.start calls (.work i)) ⟨p, []⟩) := by
  induction n with
  | zero => exact .refl
  | succ n ih =>
    rw [List.range_succ, List.foldl_append]
    refine (ih (Nat.le_of_succ_le hn)).start (.work n) ?_
    rw [← List.foldl_map (f := Call.work) (g := fun k c => Crew.start calls k c), Crew.foldl_start]
    simp only [Serves, List.nil_append, Bool.and_eq_true, decide_eq_true_eq, List.all_eq_true,
      List.mem_map, List.mem_range]
    refine ⟨hn, ?_⟩
    rintro t ⟨c, ⟨i, hi, rfl⟩, rfl⟩
    simpa [threadCall, Call.worker?] using Nat.ne_of_lt hi

abbrev RingSession (ι α : Type) :=
  Session (Ring (Item ι α)) (Ring.Push (Item ι α)) (Ring.Pop (Item ι α)) ι α

namespace Session

theorem follows_ofPool (p : Rings ι α) :
    Follows calls (fun k c => Serves p.size k c) ⟨p, []⟩ (ofPool p : RingSession ι α).crew :=
  (Follows.of_run (run_works p (Nat.le_refl _))).settle _

variable {first : RingCrew ι α} {allowed : RingCrew ι α → Call ι α → Prop}
  {s s' : RingSession ι α} {c : Call ι α} {r : Reply α}

theorem follows_request (h : Follows calls allowed first s.crew) (hc : ∀ j, allowed j c)
    (hr : request s c = (s', some r)) : Follows calls allowed first s'.crew := by
  have hsettled : Follows calls allowed first (settle (start s c)).crew := (h.start hc).settle _
  obtain ⟨rfl, hreply⟩ := Prod.mk.inj hr
  obtain ⟨t, ht, hresult⟩ := Option.bind_eq_some_iff.1 hreply
  obtain ⟨threads, hthreads⟩ := List.getLast?_eq_some_iff.1 ht
  refine hsettled.congr ?_
  cases t with
  | running c pt => cases hresult
  | finished c x => simp [Crew.dismiss, hthreads, Thread.isRunning]

end Session

end Pool

end WorkStealing
