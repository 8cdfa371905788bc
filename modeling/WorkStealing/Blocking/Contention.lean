import WorkStealing.Blocking.Basic
import WorkStealing.Crew

namespace WorkStealing.Contention

inductive Call where
  | produce (vs : List Nat)
  | consume
  deriving DecidableEq, Repr

inductive Point (E D : Type) where
  | choose (vs : List Nat)
  | push (v : Nat) (rest : List Nat) (p : Blocking.Enqueue Nat E)
  | pop (taken : List Nat) (p : Blocking.Dequeue Nat D)

/-- What a consumer took, the latest first; nothing for a producer. -/
abbrev Reply := List Nat

def Call.enter (Q : Type) {E D : Type} [Queue Q Nat E D] (spins : Nat) : Call → Point E D
  | .produce vs => .choose vs
  | .consume => .pop [] (Blocking.Dequeue.spins Q spins)

variable {Q E D : Type} [Queue Q Nat E D]

def Point.moves (spins : Nat) (q : Blocking Q) :
    Point E D → List (Move (Blocking Q) (Point E D) Reply)
  | .choose [] => [.done q []]
  | .choose (v :: vs) => [.go q (.push v vs (.flag v))]
  | .push v rest p => (p.moves q).map (.embed id (.push v rest) fun q r =>
      match r with
      | .ok _ => .go q (.choose rest)
      | .error (.full v) => .go q (.push v rest (.flag v))
      | .error (.closed _) => .done q [])
  | .pop taken p => (p.moves spins q).map (.embed id (.pop taken) fun q r =>
      match r with
      | .ok v => .go q (.pop (v :: taken) (Blocking.Dequeue.spins Q spins))
      | .error _ => .done q taken)

def calls (spins : Nat) : Machine (Blocking Q) Call (Point E D) Reply :=
  ⟨Call.enter Q spins, Point.moves spins⟩

structure Summary where
  count : Nat
  distinct : Nat
  sum : Nat
  violations : Nat
  deriving DecidableEq, Repr

def violationsIn (perProducer : Nat) : List Nat → Nat
  | [] => 0
  | v :: earlier =>
    let out := earlier.find? fun w => w / perProducer = v / perProducer
    (if out.any (v < ·) then 1 else 0) + violationsIn perProducer earlier

def countDistinct (vs : List Nat) : Nat :=
  let sorted := vs.mergeSort
  sorted.length - (sorted.zip sorted.tail).countP fun (a, b) => a == b

def summarize (perProducer : Nat) (taken : List (List Nat)) : Summary :=
  let all := taken.flatten
  ⟨all.length, countDistinct all, all.foldl (· + ·) 0,
    taken.foldl (fun n vs => n + violationsIn perProducer vs) 0⟩

/-- Producer `k` pushes the `perProducer` numbers from `k * perProducer` on. The queue is closed once
all have been pushed. -/
def perform (spins : Nat) (base : Q) (producers consumers perProducer : Nat) : Summary :=
  let share (k : Nat) := (List.range perProducer).map (k * perProducer + ·)
  let start := Crew.startMany (calls spins) ⟨{ base }, []⟩ consumers .consume
  let full := ((List.range producers).map share).foldl
    (fun k vs => k.start (calls spins) (.produce vs)) start
  let worked := (full.settle (calls spins) Crew.patience).dismiss
  let closing := Crew.call (Blocking.calls spins) Crew.patience ⟨worked.state, []⟩ .close
  let closed := Crew.settle (calls spins) Crew.patience ⟨closing.1.state, worked.threads⟩
  summarize perProducer closed.results

end WorkStealing.Contention
