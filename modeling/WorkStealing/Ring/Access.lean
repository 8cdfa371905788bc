import WorkStealing.Queue.Basic
import WorkStealing.Ring.Basic

namespace WorkStealing.Ring

variable {α : Type}

inductive Turn where
  | ready
  | behind
  | ahead
  deriving DecidableEq, Repr

/-- Tags wrap, so which of two is ahead is read off their distance. -/
def turn (tag awaited : UInt64) : Turn :=
  if tag = awaited then .ready
  else if tag - awaited < 0x8000000000000000 then .ahead
  else .behind

inductive Push (α : Type) where
  | look (v : α)
  | inspect (v : α) (pos : UInt64)
  | claim (v : α) (pos : UInt64)
  | write (v : α) (pos : UInt64)
  | publish (pos : UInt64)
  deriving DecidableEq, Repr

namespace Push

/-- A claim may fail even when the cursor has not moved. -/
def moves (r : Ring α) : Push α → List (Move (Ring α) (Push α) (Except α UInt64))
  | .look v => [.go r (.inspect v r.back)]
  | .inspect v pos =>
    match r.slot? pos with
    | none => []
    | some s =>
      match turn s.tag pos with
      | .ready => [.go r (.claim v pos)]
      | .behind => [.done r (.error v)]
      | .ahead => [.go r (.look v)]
  | .claim v pos =>
    if r.back = pos then
      [.go { r with back := pos + 1 } (.write v pos), .go r (.inspect v r.back)]
    else [.go r (.inspect v r.back)]
  | .write v pos => [.go (r.setCell pos (some v)) (.publish pos)]
  | .publish pos => [.done (r.setTag pos (pos + 1)) (.ok pos)]

end Push

inductive Pop (α : Type) where
  | look
  | inspect (pos : UInt64)
  | claim (pos : UInt64)
  | read (pos : UInt64)
  | release (pos : UInt64) (v : α)
  deriving DecidableEq, Repr

namespace Pop

def moves (r : Ring α) : Pop α → List (Move (Ring α) (Pop α) (Option (UInt64 × α)))
  | .look => [.go r (.inspect r.front)]
  | .inspect pos =>
    match r.slot? pos with
    | none => []
    | some s =>
      match turn s.tag (pos + 1) with
      | .ready => [.go r (.claim pos)]
      | .behind => [.done r none]
      | .ahead => [.go r .look]
  | .claim pos =>
    if r.front = pos then
      [.go { r with front := pos + 1 } (.read pos), .go r (.inspect r.front)]
    else [.go r (.inspect r.front)]
  | .read pos =>
    match (r.slot? pos).bind Slot.cell with
    | none => []
    | some v => [.go (r.setCell pos none) (.release pos v)]
  | .release pos v => [.done (r.setTag pos (pos + r.capacity)) (some (pos, v))]

end Pop

def push : Machine (Ring α) α (Push α) (Except α UInt64) := ⟨.look, Push.moves⟩

def pop : Machine (Ring α) Unit (Pop α) (Option (UInt64 × α)) := ⟨fun _ => .look, Pop.moves⟩

instance : Queue (Ring α) α (Push α) (Pop α) where
  push := push.mapResult fun r => r.map fun _ => ()
  pop := pop.mapResult fun r => r.map Prod.snd

instance : Holding (Ring α) α where
  length? r := some r.length.toNat
  items r := (Queue.drain r.capacity.toNat r).elim [] Prod.snd

end WorkStealing.Ring
