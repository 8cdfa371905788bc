import WorkStealing.Blocking.Basic
import WorkStealing.Crew

namespace WorkStealing.Blocking

inductive Command (α : Type) where
  | enqueue (v : α)
  | burst (vs : List α)
  | tryDequeue
  | dequeue
  | consume (threads : Nat)
  | close
  deriving DecidableEq, Repr

inductive Answer (α : Type) where
  | done
  | wouldBlock
  | one (r : Option (Reply α))
  | many (rs : List (Option (Reply α)))

structure Report (α : Type) where
  answer : Answer α
  length? : Option Nat
  sleepers : Nat
  closed : Bool
  consumed : List (Reply α)
  settled : Bool

structure Ending (α : Type) where
  reports : List (Report α)
  released : List (Reply α)
  left : List α

variable {Q α E D : Type} [Queue Q α E D] [Holding Q α]

abbrev Threads (Q α E D : Type) := Crew (Blocking Q) (Call α) (Point α E D) (Reply α)

namespace Script

def call (spins : Nat) (k : Threads Q α E D) (c : Call α) : Threads Q α E D × Option (Reply α) :=
  k.call (calls spins) Crew.patience c

def settle (spins : Nat) (k : Threads Q α E D) : Threads Q α E D :=
  k.settle (calls spins) Crew.patience

def callAll (spins : Nat) (k : Threads Q α E D) :
    List (Call α) → Threads Q α E D × List (Option (Reply α))
  | [] => (k, [])
  | c :: cs =>
    let (k, r) := call spins k c
    (callAll spins k cs).map id (r :: ·)

/-- A dequeue of the caller's own is made only if it cannot block. -/
def obey (spins : Nat) (k : Threads Q α E D) : Command α → Threads Q α E D × Answer α
  | .enqueue v => (call spins k (.enqueue v)).map id .one
  | .burst vs => (callAll spins k (vs.map .enqueue)).map id .many
  | .tryDequeue => (call spins k .tryDequeue).map id .one
  | .dequeue =>
    if !k.state.closed && Holding.length? k.state.base == some 0 then (k, .wouldBlock)
    else (call spins k .dequeue).map id .one
  | .consume n => (k.startMany (calls spins) n .dequeue, .done)
  | .close => ((call spins k .close).1, .done)

def step (spins : Nat) (k : Threads Q α E D) (c : Command α) : Threads Q α E D × Report α :=
  let (k, answer) := obey spins k c
  let k := settle spins k
  let q := k.state
  (k.dismiss, ⟨answer, Holding.length? q.base, q.gate.sleepers, q.closed, k.results,
    k.isQuiet (calls spins)⟩)

def run (spins : Nat) (k : Threads Q α E D) : List (Command α) → Threads Q α E D × List (Report α)
  | [] => (k, [])
  | c :: cs =>
    let (k, report) := step spins k c
    (run spins k cs).map id (report :: ·)

end Script

def perform (spins : Nat) (base : Q) (commands : List (Command α)) : Ending α :=
  let (k, reports) := Script.run spins ⟨{ base }, []⟩ commands
  let k := Script.settle spins (Script.call spins k .close).1
  ⟨reports, k.results, Holding.items k.state.base⟩

end WorkStealing.Blocking
