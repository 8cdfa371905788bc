import WorkStealing.Crew
import WorkStealing.Pool.Thread

/-!
Scripts on a pool. Answers become certain by holding workers: one that runs a `hold` task is blocked
until the script lets it go. Every command is followed until nobody can move.
-/

namespace WorkStealing.Pool

inductive Command (ι α : Type) where
  | hold (id : ι)
  | release (worker : Nat)
  | releaseAll
  | submit (o : Order ι α)
  | stats
  | clearStats
  | threads
  | idle
  | result (id : ι)
  | await (id : ι)
  | join (id : ι)
  | drop

inductive Answer (α : Type) where
  | done
  | flag (b : Bool)
  | notHeld
  | panicked (text : String)
  | stats (s : Stats)
  | count (n : Nat)
  | noHandle
  | unfinished (debug : String)
  | waiting
  | result (r : Except JoinError α) (debug : String)
  | joined (r : Except JoinError α)
  | noPool
  | stuck

structure Report (ι α : Type) where
  answer : Answer α
  events : List (Event ι)
  settled : Bool

def totalLength (chunks : List (UInt64 × UInt64)) : Nat :=
  chunks.foldl (fun n (lo, hi) => n + (hi.toNat - lo.toNat)) 0

def chunksRun {ι : Type} (events : List (Event ι)) : List (UInt64 × UInt64) :=
  events.filterMap fun e =>
    match e with
    | .began (.chunk _ lo hi) .. => some (lo, hi)
    | _ => none

def elementsDropped {ι : Type} (events : List (Event ι)) : Nat :=
  totalLength (events.filterMap fun e =>
    match e with
    | .dropped (.chunk _ lo hi) => some (lo, hi)
    | _ => none)

abbrev Threads (Q E D ι α : Type) := Crew (Pool Q ι α) (Call ι α) (Point E D ι α) (Reply α)

/-- `awaited` are the handles that threads of their own wait on. -/
structure Session (Q E D ι α : Type) where
  crew : Threads Q E D ι α
  awaited : List (ι × Nat) := []
  disposed : Bool := false

namespace Session

variable {Q E D ι α : Type} [Queue Q (Item ι α) E D] [BEq ι]

def pool (s : Session Q E D ι α) : Pool Q ι α := s.crew.state

def mapPool (s : Session Q E D ι α) (f : Pool Q ι α → Pool Q ι α) : Session Q E D ι α :=
  { s with crew := { s.crew with state := f s.crew.state } }

def settle (s : Session Q E D ι α) : Session Q E D ι α :=
  { s with crew := s.crew.settle calls Crew.patience }

def ofPool (p : Pool Q ι α) : Session Q E D ι α :=
  settle ⟨(List.range p.size).foldl (fun k i => k.start calls (.work i)) ⟨p, []⟩, [], false⟩

def start (s : Session Q E D ι α) (c : Call ι α) : Session Q E D ι α :=
  { s with crew := s.crew.start calls c }

def finish (s : Session Q E D ι α) : Session Q E D ι α × Option (Reply α) :=
  ({ s with crew := { s.crew with threads := s.crew.threads.dropLast } },
    s.crew.threads.getLast?.bind Thread.result?)

def request (s : Session Q E D ι α) (c : Call ι α) : Session Q E D ι α × Option (Reply α) :=
  finish (settle (start s c))

def submit (s : Session Q E D ι α) (o : Order ι α) : Session Q E D ι α × Answer α :=
  match request s (.submit o) with
  | (s, some (.left .returned)) => (s, .done)
  | (s, some (.left (.panicked payload))) => (s, .panicked payload.text)
  | (s, _) => (s, .stuck)

def free (s : Session Q E D ι α) : Nat := s.pool.workers.countP fun w => !w.held

def hold (s : Session Q E D ι α) (id : ι) : Session Q E D ι α :=
  s.free.repeat (fun s => (submit s (.task id .small .hold none)).1) s

def letGo (p : Pool Q ι α) : Pool Q ι α :=
  { p with workers := p.workers.map fun w => { w with held := false } }

def lookup (handles : List (ι × Nat)) (id : ι) : Option Nat :=
  (handles.find? fun h => h.1 == id).map Prod.snd

def forget (s : Session Q E D ι α) (id : ι) : Session Q E D ι α :=
  s.mapPool fun p => { p with handles := p.handles.filter fun h => !h.1 == id }

def result (s : Session Q E D ι α) (id : ι) : Session Q E D ι α × Answer α :=
  match lookup s.pool.handles id with
  | none => (s, .noHandle)
  | some slot =>
    match s.pool.slots[slot]? with
    | none => (s, .stuck)
    | some r =>
      if r.isFinished then
        match request (forget s id) (.await slot) with
        | (s, some (.joined v)) => (s, .result v r.debug)
        | (s, _) => (s, .stuck)
      else (s, .unfinished r.debug)

def await (s : Session Q E D ι α) (id : ι) : Session Q E D ι α × Answer α :=
  match lookup s.pool.handles id with
  | none => (s, .noHandle)
  | some slot =>
    let s := settle (start (forget s id) (.await slot))
    ({ s with awaited := (id, slot) :: s.awaited }, .waiting)

def joinedOn (slot : Nat) : Thread (Call ι α) (Point E D ι α) (Reply α) → Option (Except JoinError α)
  | .finished (.await s) (.joined r) => if s = slot then some r else none
  | _ => none

def join (s : Session Q E D ι α) (id : ι) : Session Q E D ι α × Answer α :=
  match lookup s.awaited id with
  | none => (s, .noHandle)
  | some slot =>
    match s.crew.threads.findSome? (joinedOn slot) with
    | none => (s, .stuck)
    | some r => ({ s with awaited := s.awaited.filter fun h => !h.1 == id }, .joined r)

/-- Held workers are let go once every worker has been told to stop. -/
def drop (s : Session Q E D ι α) : Session Q E D ι α :=
  let s := start s (.shutdown false)
  let told := s.crew.settleUntil calls (fun p => p.workers.all fun w => w.phase != .running)
    Crew.patience
  { (finish (settle (mapPool { s with crew := told } letGo))).1 with disposed := true }

def isIdle (p : Pool Q ι α) : Bool := p.gate.sleepers = p.size

def obey (s : Session Q E D ι α) : Command ι α → Session Q E D ι α × Answer α
  | .result id => result s id
  | .await id => await s id
  | .join id => join s id
  | c =>
    if s.disposed then (s, .noPool)
    else
      match c with
      | .hold id =>
        let s := hold s id
        (s, .flag (s.free = 0))
      | .release i =>
        if s.pool.isHeld i then (settle (s.mapPool (·.setHeld i false)), .done) else (s, .notHeld)
      | .releaseAll => (settle (s.mapPool letGo), .done)
      | .submit o => submit s o
      | .stats => (s, .stats s.pool.stats)
      | .clearStats => (s.mapPool clearStats, .done)
      | .threads => (s, .count s.pool.size)
      | .idle => (s, .flag (isIdle s.pool))
      | .drop => (drop s, .done)
      | _ => (s, .stuck)

def eventsSince (s : Session Q E D ι α) (n : Nat) : List (Event ι) :=
  (s.pool.history.take (s.pool.history.length - n)).reverse

def step (s : Session Q E D ι α) (c : Command ι α) : Session Q E D ι α × Report ι α :=
  let before := s.pool.history.length
  let (s, answer) := obey s c
  (s, ⟨answer, s.eventsSince before, s.crew.isQuiet calls⟩)

def perform (s : Session Q E D ι α) : List (Command ι α) → List (Report ι α)
  | [] => []
  | c :: cs =>
    let (s, report) := step s c
    report :: perform s cs

def submitAll (s : Session Q E D ι α) (orders : List (Order ι α)) : Session Q E D ι α :=
  orders.foldl (fun s o => if s.pool.aborted then s else (submit s o).1) s

end Session

end WorkStealing.Pool
