import WorkStealing.Pool.Turn
import WorkStealing.Pool.Worker

namespace WorkStealing.Pool

inductive Loop (D ι α : Type) where
  | search (s : Search D ι α)
  | working
  | countPanic (text : String)
  | reportPanic (text : String)
  | reportAbort (text : String)
  | abort
  | countRun
  | stop

namespace Loop

open TurnMove

variable {Q E D ι α : Type}

def resume (policy : PanicPolicy) : Outcome → Loop D ι α
  | .returned => .countRun
  | .panicked payload =>
    match policy with
    | .contain => .countPanic payload.text
    | .abort => .reportAbort payload.text

/-- Under the policy to abort, the whole program ends before the task has been counted. -/
def moves [Queue Q (Item ι α) E D] (i : Nat) (p : Pool Q ι α) :
    Loop D ι α → List (TurnMove Q ι α (Loop D ι α))
  | .search s => (s.moves i p).map (.embed id (fun s => .stay (.search s)) fun p found =>
      match found with
      | .task t => call p .working (.run t)
      | .stop => stay p .stop)
  | .working => []
  | .countPanic text =>
    [stay (p.bump i fun c => { c with panics := c.panics + 1 }) (.reportPanic text)]
  | .reportPanic text => [stay (p.note (.notice (.panicked i text))) .countRun]
  | .reportAbort text => [stay (p.note (.notice (.aborting i text))) .abort]
  | .abort => [stay { p with aborted := true } .working]
  | .countRun => [stay (p.bump i fun c => { c with tasksRun := c.tasksRun + 1 }) (.search .look)]
  | .stop => [leave (p.setPhase i .stopped) .returned]

end Loop

end WorkStealing.Pool
