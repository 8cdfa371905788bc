import WorkStealing.Latch.Basic
import WorkStealing.Pool.Error

namespace WorkStealing.Pool

/-- The producer's side of a slot, which the closure of a task owns. -/
structure Completer where
  delivered : Bool := false
  deriving DecidableEq, Repr

inductive Writer where
  | complete
  | destructor
  deriving DecidableEq, Repr

structure ResultSlot (α : Type) where
  latch : Latch := ⟨Latch.counts 1, none, []⟩
  result : Option (Except JoinError α) := none

namespace ResultSlot

variable {α : Type}

def isFinished (s : ResultSlot α) : Bool := s.latch.isReleased

def debug (s : ResultSlot α) : String := s!"TaskHandle \x7b finished: {s.isFinished} \x7d"

def setLatch (s : ResultSlot α) (l : Latch) : ResultSlot α := { s with latch := l }

inductive Deliver (α : Type) where
  | store (r : Except JoinError α)
  | post (p : Latch.Post)

def Deliver.moves (s : ResultSlot α) :
    Deliver α → List (Move (ResultSlot α) (Deliver α) Completer)
  | .store r => [.go { s with result := some r } (.post (.look 1))]
  | .post p => (p.moves s.latch).map (.embed s.setLatch .post
      fun l _ => .done (s.setLatch l) { delivered := true })

theorem Deliver.eq_of_done {s s' : ResultSlot α} {d : Deliver α} {c : Completer}
    (h : .done s' c ∈ d.moves s) : c = { delivered := true } := by
  cases d with
  | store r => cases List.mem_singleton.1 h
  | post p =>
    obtain ⟨b, -, hb⟩ := List.mem_map.1 h
    cases b with
    | go l q => cases hb
    | done l x => exact (Move.done.inj hb).2.symm

inductive Await where
  | wait (p : Latch.Wait)
  | take
  deriving DecidableEq, Repr

/-- An empty slot counts as a task that was dropped. -/
def Await.moves (s : ResultSlot α) :
    Await → List (Move (ResultSlot α) Await (Except JoinError α))
  | .wait p => (p.moves s.latch).map (.embed s.setLatch .wait fun l _ => .go (s.setLatch l) .take)
  | .take => [.done { s with result := none } (s.result.getD (.error .cancelled))]

def await : Machine (ResultSlot α) Unit Await (Except JoinError α) :=
  ⟨fun _ => .wait .peek, Await.moves⟩

end ResultSlot

namespace Completer

variable {α : Type}

def complete (v : α) : ResultSlot.Deliver α := .store (.ok v)

/-- A thread that is itself unwinding takes the task for one that has panicked. -/
def verdict (unwinding : Bool) : Except JoinError α :=
  .error (if unwinding then .panicked else .cancelled)

def drop (c : Completer) (unwinding : Bool) : Option (ResultSlot.Deliver α) :=
  if c.delivered then none else some (.store (verdict unwinding))

end Completer

end WorkStealing.Pool
