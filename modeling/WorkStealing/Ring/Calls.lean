import WorkStealing.Crew
import WorkStealing.Ring.Access

namespace WorkStealing.Ring

variable {α : Type}

inductive Call (α : Type) where
  | push (v : α)
  | pop
  deriving DecidableEq, Repr

inductive Point (α : Type) where
  | push (e : Push α)
  | pop (d : Pop α)
  deriving DecidableEq, Repr

inductive Reply (α : Type) where
  | pushed (r : Except α UInt64)
  | popped (r : Option (UInt64 × α))
  deriving Repr

def Call.enter : Call α → Point α
  | .push v => .push (.look v)
  | .pop => .pop .look

def Point.moves (r : Ring α) : Point α → List (Move (Ring α) (Point α) (Reply α))
  | .push e => (e.moves r).map (.embed id .push fun r x => .done r (.pushed x))
  | .pop d => (d.moves r).map (.embed id .pop fun r x => .done r (.popped x))

def calls : Machine (Ring α) (Call α) (Point α) (Reply α) := ⟨Call.enter, Point.moves⟩

end WorkStealing.Ring
