import WorkStealing.Queue.Basic

namespace WorkStealing.Queue

inductive Command (α : Type) where
  | enqueue (v : α)
  | dequeue
  | fill (vs : List α)
  | drain (n : Nat)
  deriving DecidableEq, Repr

inductive Answer (α : Type) where
  | accepted
  | full (v : α)
  | value (v : α)
  | none
  | filled (accepted : Nat)
  | drained (vs : List α)
  deriving DecidableEq, Repr

/-- `lost` are the values a fill could not place. -/
structure Report (α : Type) where
  answer : Answer α
  length? : Option Nat
  lost : List α := []
  deriving DecidableEq, Repr

variable {Q α E D : Type} [Queue Q α E D] [Holding Q α]

def obey (q : Q) : Command α → Option (Q × Answer α × List α)
  | .enqueue v => (enqueue q v).map fun
      | (q, .ok _) => (q, .accepted, [])
      | (q, .error v) => (q, .full v, [])
  | .dequeue => (dequeue q).map fun
      | (q, some v) => (q, .value v, [])
      | (q, none) => (q, .none, [])
  | .fill vs => (fill q vs).map fun (q, refused) =>
      (q, .filled (vs.length - refused.length), refused)
  | .drain n => (drain n q).map fun (q, vs) => (q, .drained vs, [])

def step (q : Q) (c : Command α) : Option (Q × Report α) :=
  (obey q c).map fun (q, answer, lost) => (q, ⟨answer, Holding.length? q, lost⟩)

def perform (q : Q) : List (Command α) → Option (List (Report α) × List α)
  | [] => some ([], Holding.items q)
  | c :: cs =>
    match step q c with
    | some (q, report) => (perform q cs).map fun (reports, left) => (report :: reports, left)
    | none => none

end WorkStealing.Queue
