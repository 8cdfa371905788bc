import WorkStealing.Ring.Basic

namespace WorkStealing.Pool

inductive PoolError where
  | noWorkers
  | queueCapacity (cause : CapacityError)
  | spawn (index : Nat) (cause : String)
  deriving DecidableEq, Repr

namespace PoolError

def message : PoolError → String
  | .noWorkers => "pool needs at least one worker"
  | .queueCapacity e => s!"invalid worker queue capacity: {e.message}"
  | .spawn index _ => s!"failed to spawn worker {index}"

def source : PoolError → Option String
  | .noWorkers => none
  | .queueCapacity e => some e.message
  | .spawn _ cause => some cause

end PoolError

inductive JoinError where
  | panicked
  | cancelled
  deriving DecidableEq, Repr

namespace JoinError

def message : JoinError → String
  | .panicked => "task panicked"
  | .cancelled => "task was dropped before it ran"

def debug : JoinError → String
  | .panicked => "Panicked"
  | .cancelled => "Cancelled"

end JoinError

end WorkStealing.Pool
