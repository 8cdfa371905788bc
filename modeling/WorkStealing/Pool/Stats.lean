namespace WorkStealing.Pool

structure Stats where
  semaphorePosts : Nat := 0
  semaphoreWaits : Nat := 0
  trySteals : Nat := 0
  steals : Nat := 0
  tasksRun : Nat := 0
  panics : Nat := 0
  deriving DecidableEq, Repr

namespace Stats

instance : Add Stats where
  add a b :=
    { semaphorePosts := a.semaphorePosts + b.semaphorePosts
      semaphoreWaits := a.semaphoreWaits + b.semaphoreWaits
      trySteals := a.trySteals + b.trySteals
      steals := a.steals + b.steals
      tasksRun := a.tasksRun + b.tasksRun
      panics := a.panics + b.panics }

def debug (s : Stats) : String :=
  s!"PoolStats \x7b semaphore_posts: {s.semaphorePosts}, semaphore_waits: {s.semaphoreWaits}, " ++
    s!"try_steals: {s.trySteals}, steals: {s.steals}, tasks_run: {s.tasksRun}, " ++
    s!"panics: {s.panics} \x7d"

def totals : Stats → List Stats → List (Stats × Stats)
  | _, [] => []
  | total, s :: rest => (total + s, s) :: totals (total + s) rest

end Stats

end WorkStealing.Pool
