import WorkStealing.Semaphore.Basic

/-!
The semaphore with its waiters asleep on a condition variable. A waiter that finds no permit falls
asleep; a release rouses one sleeper if it brings one permit and all of them otherwise, and a roused
waiter looks again. Sleepers are alike, so their number stands for them.
-/

namespace WorkStealing

structure Parking where
  semaphore : Semaphore := {}
  asleep : Nat := 0
  roused : Nat := 0
  deriving DecidableEq, Repr

namespace Parking

inductive Point where
  | awake (p : Semaphore.Point)
  | parked
  deriving DecidableEq, Repr

def rouse (k : Parking) : Nat → Parking
  | 1 => { k with asleep := k.asleep - 1, roused := k.roused + min k.asleep 1 }
  | _ => { k with asleep := 0, roused := k.roused + k.asleep }

def stir (k : Parking) : Option Parking := if k.asleep = 0 then none else some (k.rouse 1)

def awaken (k : Parking) (p : Semaphore.Point) : List (Move Parking Point Semaphore.Reply) :=
  (p.moves k.semaphore).map (.embed ({ k with semaphore := · }) .awake
    fun s r => .done { k with semaphore := s } r)

def Point.moves (k : Parking) : Point → List (Move Parking Point Semaphore.Reply)
  | .awake (.wait .acquire) =>
    if k.semaphore.permits = 0 then [.go { k with asleep := k.asleep + 1 } .parked]
    else k.awaken (.wait .acquire)
  | .awake (.post (.release n)) => (k.rouse n).awaken (.post (.release n))
  | .awake p => k.awaken p
  | .parked =>
    match k.roused with
    | 0 => []
    | n + 1 => [.go { k with roused := n } (.awake (.wait .acquire))]

def calls : Machine Parking Semaphore.Call Point Semaphore.Reply where
  enter c := .awake c.enter
  moves := Point.moves

/-- The same calls where a sleeper may be roused at any time. -/
def restless : Machine Parking Semaphore.Call Point Semaphore.Reply where
  enter c := .awake c.enter
  moves k p := p.moves k ++ if p = .parked then k.stir.toList.map (.go · .parked) else []

end Parking

end WorkStealing
