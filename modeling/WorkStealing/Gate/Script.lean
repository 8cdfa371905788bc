import WorkStealing.Crew.Script
import WorkStealing.Gate.Basic

namespace WorkStealing.Gate

inductive Recheck (α : Type) where
  | hit (v : α)
  | miss
  deriving DecidableEq, Repr

def Recheck.moves {α : Type} (g : Gate) :
    Recheck α → List (Move Gate (Recheck α) (Option (α × Nat)))
  | .hit v => [.done g (some (v, g.sleepers))]
  | .miss => [.done g none]

inductive Call (α : Type) where
  | notify (n : Notify)
  | sleep (r : Recheck α)
  deriving DecidableEq, Repr

inductive Point (α : Type) where
  | notify (n : Notify)
  | sleep (r : Recheck α) (p : Sleep (Recheck α) (α × Nat))
  deriving DecidableEq, Repr

inductive Reply (α : Type) where
  | posted (n : Nat)
  | found (v : α) (sleepers : Nat)
  | woken
  deriving DecidableEq, Repr

def Call.enter {α : Type} : Call α → Point α
  | .notify n => .notify n
  | .sleep r => .sleep r .declare

def Point.moves {α : Type} (g : Gate) : Point α → List (Move Gate (Point α) (Reply α))
  | .notify n => (n.moves g).map (.embed id .notify fun g k => .done g (.posted k))
  | .sleep r p => (p.moves ⟨fun _ => r, Recheck.moves⟩ g).map (.embed id (.sleep r) fun g found =>
      match found with
      | some (v, n) => .done g (.found v n)
      | none => .done g .woken)

def calls (α : Type) : Machine Gate (Call α) (Point α) (Reply α) := ⟨Call.enter, Point.moves⟩

structure Report (α : Type) where
  answer : Option (Reply α)
  sleepers : Nat
  woken : Nat
  settled : Bool
  deriving DecidableEq, Repr

structure Ending (α : Type) where
  reports : List (Report α)
  sleeping : Nat
  allReleased : Bool
  deriving DecidableEq, Repr

def observe {α : Type} (k : Crew Gate (Call α) (Point α) (Reply α)) (answer : Option (Reply α)) :
    Report α :=
  ⟨answer, k.state.sleepers, k.results.length, k.isQuiet (calls α)⟩

def perform {α : Type} (commands : List (Crew.Command (Call α))) : Ending α :=
  let (k, reports) := Crew.follow (calls α) observe ⟨{}, []⟩ commands
  ⟨reports, k.blocked, (k.callPerBlocked (calls α) (.notify .always)).blocked = 0⟩

end WorkStealing.Gate
