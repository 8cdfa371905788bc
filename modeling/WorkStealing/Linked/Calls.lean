import WorkStealing.Crew
import WorkStealing.Linked.Basic

namespace WorkStealing.Linked

variable {α : Type}

inductive Call (α : Type) where
  | push (v : α)
  | pop
  | isEmpty
  deriving DecidableEq, Repr

inductive Point (α : Type) where
  | push (e : Push α)
  | pop (d : Pop α)
  | look
  deriving DecidableEq, Repr

inductive Reply (α : Type) where
  | pushed (r : Except α Nat)
  | popped (r : Option (Nat × α))
  | empty (answer : Bool)
  deriving Repr

def Call.enter : Call α → Point α
  | .push v => .push (.swap v)
  | .pop => .pop .advance
  | .isEmpty => .look

def Point.moves (q : Linked α) : Point α → List (Move (Linked α) (Point α) (Reply α))
  | .push e => (e.moves q).map (.embed id .push fun q x => .done q (.pushed x))
  | .pop d => (d.moves q).map (.embed id .pop fun q x => .done q (.popped x))
  | .look =>
    match q.live? q.stub with
    | none => []
    | some s => [.done q (.empty s.next.isNone)]

def calls : Machine (Linked α) (Call α) (Point α) (Reply α) := ⟨Call.enter, Point.moves⟩

end WorkStealing.Linked
