import WorkStealing.Gate.Basic
import WorkStealing.Queue.Basic
import WorkStealing.Ring.Access
import WorkStealing.Pool.Config
import WorkStealing.Pool.Handle
import WorkStealing.Pool.Order
import WorkStealing.Pool.Stats

namespace WorkStealing

namespace Pool

abbrev Item (ι α : Type) := Task (Job ι α)

inductive Phase where
  | running
  | stopping
  | stopped
  deriving DecidableEq, Repr

/-- A held worker is blocked inside a task until it is let go. -/
structure Worker (Q : Type) where
  queue : Q
  phase : Phase := .running
  counters : Stats := {}
  held : Bool := false

inductive Notice where
  | started (workers : Nat) (capacity : UInt64)
  | panicked (worker : Nat) (text : String)
  | aborting (worker : Nat) (text : String)
  | shutdownInitiated
  | dropped (tasks : Nat)
  | shutdownComplete
  deriving DecidableEq, Repr

def Notice.line : Notice → String
  | .started n c => s!"DEBUG [Pool] Started {n} workers, queue capacity {c}"
  | .panicked i text => s!"ERROR [Worker {i}] Task panicked: {text}"
  | .aborting i text => s!"ERROR [Worker {i}] Task panicked, aborting: {text}"
  | .shutdownInitiated => "DEBUG [Pool] Shutdown initiated"
  | .dropped n => s!"DEBUG [Pool] Dropped {n} queued tasks at shutdown"
  | .shutdownComplete => "DEBUG [Pool] Shutdown complete"

/-- `ended` and `dropped` tell of a closure that is freed with what it has captured. -/
inductive Event (ι : Type) where
  | queued (task : Label ι) (worker : Nat)
  | taken (task : Label ι) (thief owner : Nat)
  | began (task : Label ι) (place : Place) (held : Bool)
  | ended (task : Label ι) (place : Place)
  | dropped (task : Label ι)
  | notice (n : Notice)
  deriving DecidableEq, Repr

end Pool

structure Pool (Q ι α : Type) where
  workers : List (Pool.Worker Q)
  lastPlaced : Nat
  spinCount : Nat
  minGranularity : UInt64
  panicPolicy : Pool.PanicPolicy
  gate : Gate := {}
  semaphorePosts : Nat := 0
  slots : List (Pool.ResultSlot α) := []
  handles : List (ι × Nat) := []
  history : List (Pool.Event ι) := []
  aborted : Bool := false

namespace Pool

variable {Q ι α : Type}

instance : Gated (Pool Q ι α) := ⟨gate, fun p g => { p with gate := g }⟩

def ofQueue (queue : Q) (workers : Nat) (c : Config) : Pool Q ι α :=
  { workers := List.replicate workers { queue }
    lastPlaced := workers - 1
    spinCount := c.spinCount
    minGranularity := max c.minGranularity 1
    panicPolicy := c.panicPolicy }

/-- A pool with a ring for each worker; `cores` stands in for a worker count that was not set. -/
def new (c : Config) (cores : Nat) : Except PoolError (Pool (Ring (Item ι α)) ι α) :=
  match c.workerCount.getD cores with
  | 0 => .error .noWorkers
  | n + 1 =>
    match Ring.new c.queueCapacity none with
    | .error e => .error (.queueCapacity e)
    | .ok ring =>
      .ok { ofQueue ring (n + 1) c with
            history := [.notice (.started (n + 1) c.queueCapacity)] }

def size (p : Pool Q ι α) : Nat := p.workers.length

def modify (p : Pool Q ι α) (i : Nat) (f : Worker Q → Worker Q) : Pool Q ι α :=
  { p with workers := p.workers.modify i f }

def setQueue (p : Pool Q ι α) (i : Nat) (q : Q) : Pool Q ι α :=
  p.modify i fun w => { w with queue := q }

def setPhase (p : Pool Q ι α) (i : Nat) (phase : Phase) : Pool Q ι α :=
  p.modify i fun w => { w with phase }

def setHeld (p : Pool Q ι α) (i : Nat) (held : Bool) : Pool Q ι α :=
  p.modify i fun w => { w with held }

def bump (p : Pool Q ι α) (i : Nat) (f : Stats → Stats) : Pool Q ι α :=
  p.modify i fun w => { w with counters := f w.counters }

def phase? (p : Pool Q ι α) (i : Nat) : Option Phase := p.workers[i]?.map Worker.phase

def isHeld (p : Pool Q ι α) (i : Nat) : Bool := p.workers[i]?.any Worker.held

def note (p : Pool Q ι α) (e : Event ι) : Pool Q ι α := { p with history := e :: p.history }

def noteAll (p : Pool Q ι α) (es : List (Event ι)) : Pool Q ι α :=
  { p with history := es.reverse ++ p.history }

def setSlot (p : Pool Q ι α) (s : Nat) (slot : ResultSlot α) : Pool Q ι α :=
  { p with slots := p.slots.set s slot }

def stats (p : Pool Q ι α) : Stats :=
  p.workers.foldl (fun total w => total + w.counters) { semaphorePosts := p.semaphorePosts }

def clearStats (p : Pool Q ι α) : Pool Q ι α :=
  { p with workers := p.workers.map fun w => { w with counters := {} }, semaphorePosts := 0 }

variable {E D P R : Type} [Queue Q (Item ι α) E D]

def tryPop (p : Pool Q ι α) (i : Nat) (d : D) (stay : D → P)
    (finish : Pool Q ι α → Option (Item ι α) → Move (Pool Q ι α) P R) :
    List (Move (Pool Q ι α) P R) :=
  match p.workers[i]? with
  | none => []
  | some w => (Queue.pop.moves w.queue d).map (.embed (p.setQueue i) stay
      fun q t => finish (p.setQueue i q) t)

def tryPush (p : Pool Q ι α) (i : Nat) (e : E) (stay : E → P)
    (finish : Pool Q ι α → Except (Item ι α) Unit → Move (Pool Q ι α) P R) :
    List (Move (Pool Q ι α) P R) :=
  match p.workers[i]? with
  | none => []
  | some w => (Queue.push.moves w.queue e).map (.embed (p.setQueue i) stay
      fun q r => finish (p.setQueue i q) r)

end Pool

end WorkStealing
