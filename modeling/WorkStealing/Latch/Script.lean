import WorkStealing.Crew.Script
import WorkStealing.Latch.Basic

namespace WorkStealing.Latch

inductive Call where
  | post (n : Int32)
  | wait
  deriving DecidableEq, Repr

inductive Point where
  | offer (n : Int32)
  | post (p : Post)
  | wait (p : Wait)
  deriving DecidableEq, Repr

inductive Reply where
  | posted (released : Bool)
  | refused (cause : Refusal)
  | passed
  | alarmed (counter : Int32)
  deriving DecidableEq, Repr

def Call.enter : Call → Point
  | .post n => .offer n
  | .wait => .wait .peek

def Point.moves (l : Latch) : Point → List (Move Latch Point Reply)
  | .offer n => if 0 < n then [.go l (.post (.look n))] else [.done l (.refused (.amount n))]
  | .post p => (p.moves l).map (.embed id .post fun l b => .done l (.posted b))
  | .wait p => (p.moves l).map (.embed id .wait fun l alarm =>
      match alarm with
      | none => .done l .passed
      | some c => .done l (.alarmed c))

def calls : Machine Latch Call Point Reply := ⟨Call.enter, Point.moves⟩

structure Report where
  answer : Option Reply
  latch : Latch
  returned : Nat
  settled : Bool
  deriving DecidableEq, Repr

structure Ending where
  reports : List Report
  blocked : Nat
  lastPost : Option Reply
  allReleased : Bool
  deriving DecidableEq, Repr

abbrev Threads := Crew Latch Call Point Reply

def observe (k : Threads) (answer : Option Reply) : Report :=
  ⟨answer, k.state, k.results.length, k.isQuiet calls⟩

def perform (latch : Latch) (commands : List (Crew.Command Call)) : Ending :=
  let (k, reports) := Crew.follow calls observe ⟨latch, []⟩ commands
  match k.blocked with
  | 0 => ⟨reports, 0, none, true⟩
  | n =>
    let (k, r) := Crew.obey calls k (.call (.post Int32.maxValue))
    ⟨reports, n, r, k.blocked = 0⟩

end WorkStealing.Latch
