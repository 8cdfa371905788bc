import WorkStealing.Queue.Basic

namespace WorkStealing

structure Fifo (α : Type) where
  items : List α := []
  bound : Option Nat := none
  deriving DecidableEq, Repr

namespace Fifo

variable {α : Type}

def isFull (q : Fifo α) : Bool :=
  match q.bound with
  | none => false
  | some n => n ≤ q.items.length

def push : Machine (Fifo α) α α (Except α Unit) where
  enter v := v
  moves q v :=
    if q.isFull then [.done q (.error v)]
    else [.done { q with items := q.items ++ [v] } (.ok ())]

def pop : Machine (Fifo α) Unit Unit (Option α) where
  enter := id
  moves q _ :=
    match q.items with
    | [] => [.done q none]
    | v :: vs => [.done { q with items := vs } (some v)]

instance : Queue (Fifo α) α α Unit := ⟨push, pop⟩

theorem enqueue_eq (q : Fifo α) (v : α) :
    Queue.enqueue q v =
      some (if q.isFull then (q, .error v) else ({ q with items := q.items ++ [v] }, .ok ())) := by
  cases h : q.isFull <;>
    simp [Queue.enqueue, Queue.push, push, Machine.run, Machine.runFrom, Queue.pace, h]

theorem dequeue_eq (q : Fifo α) :
    Queue.dequeue q = some ({ q with items := q.items.tail }, q.items.head?) := by
  rcases q with ⟨_ | ⟨v, vs⟩, n⟩ <;> rfl

instance : Holding (Fifo α) α := ⟨fun q => some q.items.length, items⟩

end Fifo

end WorkStealing
