import WorkStealing.Machine

/-!
Any number of calls in progress on one state. `Step` is the interleaving of their atomic steps, with
new calls joining whenever they are allowed to; `settle` is one schedule of it, always the earliest
call that can move, followed until nobody can.
-/

namespace WorkStealing

variable {S C P R : Type}

inductive Thread (C P R : Type) where
  | running (call : C) (point : P)
  | finished (call : C) (result : R)
  deriving DecidableEq, Repr

namespace Thread

def result? : Thread C P R → Option R
  | .running .. => none
  | .finished _ r => some r

def isRunning : Thread C P R → Bool
  | .running .. => true
  | .finished .. => false

end Thread

def Move.land (c : C) : Move S P R → S × Thread C P R
  | .go s p => (s, .running c p)
  | .done s r => (s, .finished c r)

structure Crew (S C P R : Type) where
  state : S
  threads : List (Thread C P R) := []

namespace Crew

def start (m : Machine S C P R) (k : Crew S C P R) (c : C) : Crew S C P R :=
  { k with threads := k.threads ++ [.running c (m.enter c)] }

inductive Step (m : Machine S C P R) (allowed : Crew S C P R → C → Prop) :
    Crew S C P R → Crew S C P R → Prop where
  | start (k : Crew S C P R) (c : C) (h : allowed k c) : Step m allowed k (k.start m c)
  | move (s : S) (before after : List (Thread C P R)) (c : C) (p : P) (a : Move S P R)
      (h : a ∈ m.moves s p) :
      Step m allowed ⟨s, before ++ .running c p :: after⟩
        ⟨(a.land c).1, before ++ (a.land c).2 :: after⟩

inductive Reachable (m : Machine S C P R) (allowed : Crew S C P R → C → Prop)
    (first : Crew S C P R) : Crew S C P R → Prop where
  | refl : Reachable m allowed first first
  | step {k l : Crew S C P R} (h : Reachable m allowed first k) (hs : Step m allowed k l) :
      Reachable m allowed first l

def Quiet (m : Machine S C P R) (k : Crew S C P R) : Prop :=
  ∀ c p, .running c p ∈ k.threads → m.moves k.state p = []

def next (m : Machine S C P R) (s : S) : Thread C P R → Option (S × Thread C P R)
  | .running c p => (m.moves s p).head?.map (Move.land c)
  | .finished .. => none

def advance (m : Machine S C P R) (s : S) :
    List (Thread C P R) → Option (S × List (Thread C P R))
  | [] => none
  | t :: ts =>
    match next m s t with
    | some (s, t) => some (s, t :: ts)
    | none => (advance m s ts).map fun (s, ts) => (s, t :: ts)

theorem advance_eq_none_iff {m : Machine S C P R} {s : S} {ts : List (Thread C P R)} :
    advance m s ts = none ↔ Quiet m ⟨s, ts⟩ := by
  induction ts with
  | nil => simp [advance, Quiet]
  | cons t ts ih =>
    cases t with
    | running c p =>
      cases h : m.moves s p with
      | nil =>
        simp only [advance, next, h, List.head?_nil, Option.map_none, Option.map_eq_none_iff, ih,
          Quiet, List.mem_cons, Thread.running.injEq]
        exact ⟨fun H _ _ hc => hc.elim (fun e => e.2 ▸ h) (H _ _), fun H _ _ hc => H _ _ (.inr hc)⟩
      | cons a as =>
        have : ¬ Quiet m ⟨s, .running c p :: ts⟩ := fun H => by simpa [h] using H c p (by simp)
        simp [advance, next, h, this]
    | finished c r => simp_all [advance, next, Quiet]

theorem advance_step {m : Machine S C P R} {allowed : Crew S C P R → C → Prop} {s t : S}
    {ts us : List (Thread C P R)} (h : advance m s ts = some (t, us)) :
    Step m allowed ⟨s, ts⟩ ⟨t, us⟩ := by
  suffices ∀ before, Step m allowed ⟨s, before ++ ts⟩ ⟨t, before ++ us⟩ from this []
  induction ts generalizing us with
  | nil => simp [advance] at h
  | cons x ts ih =>
    intro before
    simp only [advance] at h
    split at h
    · rename_i s' t' hn
      obtain ⟨rfl, rfl⟩ : s' = t ∧ t' :: ts = us := by simpa using h
      cases x with
      | finished c r => simp [next] at hn
      | running c p =>
        cases hm : m.moves s p with
        | nil => simp [next, hm] at hn
        | cons a as =>
          have hl : a.land c = (s', t') := by simpa [next, hm] using hn
          have : Step m allowed _ _ := .move s before ts c p a (by simp [hm])
          rwa [hl] at this
    · obtain ⟨v, hv, he⟩ := Option.map_eq_some_iff.1 h
      obtain ⟨rfl, rfl⟩ : v.1 = t ∧ x :: v.2 = us := by simpa using he
      simpa using ih hv (before ++ [x])

/-- Lets the earliest call that can move take its first step, over and over, `budget` times at
most. -/
def settle (m : Machine S C P R) : Nat → Crew S C P R → Crew S C P R
  | 0, k => k
  | n + 1, k =>
    match advance m k.state k.threads with
    | some (s, ts) => settle m n ⟨s, ts⟩
    | none => k

def settleUntil (m : Machine S C P R) (wanted : S → Bool) : Nat → Crew S C P R → Crew S C P R
  | 0, k => k
  | n + 1, k =>
    if wanted k.state then k
    else
      match advance m k.state k.threads with
      | some (s, ts) => settleUntil m wanted n ⟨s, ts⟩
      | none => k

def isQuiet (m : Machine S C P R) (k : Crew S C P R) : Bool :=
  (advance m k.state k.threads).isNone

theorem isQuiet_iff {m : Machine S C P R} {k : Crew S C P R} : k.isQuiet m ↔ Quiet m k := by
  simp [isQuiet, advance_eq_none_iff]

theorem reachable_settle {m : Machine S C P R} {allowed : Crew S C P R → C → Prop}
    {first k : Crew S C P R} (n : Nat) (h : Reachable m allowed first k) :
    Reachable m allowed first (k.settle m n) := by
  induction n generalizing k with
  | zero => exact h
  | succ n ih =>
    simp only [settle]
    split
    · rename_i ha; exact ih (h.step (advance_step ha))
    · exact h

def call (m : Machine S C P R) (budget : Nat) (k : Crew S C P R) (c : C) :
    Crew S C P R × Option R :=
  match m.run budget k.state c with
  | some (s, r) => ({ k with state := s }, some r)
  | none => (k, none)

def startMany (m : Machine S C P R) (k : Crew S C P R) (n : Nat) (c : C) : Crew S C P R :=
  { k with threads := k.threads ++ List.replicate n (.running c (m.enter c)) }

def blocked (k : Crew S C P R) : Nat := k.threads.countP Thread.isRunning

def results (k : Crew S C P R) : List R := k.threads.filterMap Thread.result?

def dismiss (k : Crew S C P R) : Crew S C P R :=
  { k with threads := k.threads.filter Thread.isRunning }

/-- Steps granted between two settled states: more than any script here comes near. -/
def patience : Nat := 200000000

end Crew

end WorkStealing
