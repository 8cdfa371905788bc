import WorkStealing.Task

namespace WorkStealing.Pool

inductive Place where
  | worker (index : Nat)
  | caller
  deriving DecidableEq, Repr

inductive Work (α ο : Type) where
  | nothing
  | answer (v : α)
  | hold
  | spawn (children : List ο)

structure RangePanic where
  onWorker : Bool
  payload : Payload
  deriving DecidableEq, Repr

def RangePanic.at? (r : RangePanic) : Place → Option Payload
  | .worker _ => if r.onWorker then some r.payload else none
  | .caller => if r.onWorker then none else some r.payload

inductive Order (ι α : Type) where
  | task (id : ι) (layout : Layout) (work : Work α (Order ι α)) (panic : Option Payload)
  | range (id : ι) (lo hi : UInt64) (panic : Option RangePanic)

inductive Job (ι α : Type) where
  | task (id : ι) (work : Work α (Order ι α)) (panic : Option Payload) (slot : Option Nat)
  | chunk (id : ι) (lo hi : UInt64) (panic : Option RangePanic)

inductive Label (ι : Type) where
  | task (id : ι)
  | chunk (id : ι) (lo hi : UInt64)
  deriving DecidableEq, Repr

def Job.label {ι α : Type} : Job ι α → Label ι
  | .task id .. => .task id
  | .chunk id lo hi _ => .chunk id lo hi

inductive Outcome where
  | returned
  | panicked (payload : Payload)
  deriving DecidableEq, Repr

def Outcome.ofPanic : Option Payload → Outcome
  | none => .returned
  | some p => .panicked p

def Outcome.isPanic : Outcome → Bool
  | .returned => false
  | .panicked _ => true

end WorkStealing.Pool
