import WorkStealing.Crew.Script
import WorkStealing.Semaphore.Parking

namespace WorkStealing.Semaphore

structure Report where
  answer : Option Reply
  available : Int64
  blocked : Nat
  settled : Bool
  deriving DecidableEq, Repr

structure Ending where
  start : Int64
  reports : List Report
  blocked : Nat
  allReleased : Bool
  deriving DecidableEq, Repr

def observe (k : Crew Parking Call Parking.Point Reply) (answer : Option Reply) : Report :=
  ⟨answer, k.state.semaphore.count, k.blocked, k.isQuiet Parking.calls⟩

def perform (permits : UInt64) (commands : List (Crew.Command Call)) : Ending :=
  let (k, reports) := Crew.follow Parking.calls observe ⟨⟨ofPermits permits, 0, 0⟩, []⟩ commands
  ⟨(ofPermits permits).count, reports, k.blocked,
    (k.callPerBlocked Parking.calls .post).blocked = 0⟩

end WorkStealing.Semaphore
