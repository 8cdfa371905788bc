namespace WorkStealing.Pool

inductive PanicPolicy where
  | contain
  | abort
  deriving DecidableEq, Repr

/-- Without a worker count there is one worker for each core. -/
structure Config where
  workerCount : Option Nat := none
  queueCapacity : UInt64 := 32768
  spinCount : Nat := 100
  minGranularity : UInt64 := 16
  threadName : String := "bop-sched"
  pinWorkers : Bool := false
  panicPolicy : PanicPolicy := .contain
  deriving DecidableEq, Repr

inductive Setting where
  | workerCount (n : Nat)
  | queueCapacity (n : UInt64)
  | spinCount (n : Nat)
  | minGranularity (n : UInt64)
  | threadName (name : String)
  | pinWorkers (pin : Bool)
  | panicPolicy (policy : PanicPolicy)
  deriving DecidableEq, Repr

namespace Config

def set (c : Config) : Setting → Config
  | .workerCount n => { c with workerCount := some n }
  | .queueCapacity n => { c with queueCapacity := n }
  | .spinCount n => { c with spinCount := n }
  | .minGranularity n => { c with minGranularity := n }
  | .threadName name => { c with threadName := name }
  | .pinWorkers pin => { c with pinWorkers := pin }
  | .panicPolicy policy => { c with panicPolicy := policy }

def ofSettings (settings : List Setting) : Config := settings.foldl set {}

end Config

end WorkStealing.Pool
