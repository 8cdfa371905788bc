import WorkStealing.Pool.Push
import WorkStealing.Pool.Range
import WorkStealing.Pool.Turn

namespace WorkStealing.Pool

structure RangeCall (ι : Type) where
  id : ι
  hi : UInt64
  granularity : UInt64
  panic : Option RangePanic
  deriving DecidableEq, Repr

inductive Submit (E ι α : Type) where
  | begin (o : Order ι α)
  | push (p : Push E ι α) (handle? : Option (ι × Nat))
  | wake (w : Wake) (handle? : Option (ι × Nat))
  | inline (handle? : Option (ι × Nat))
  | keep (handle : ι × Nat)
  | cut (r : RangeCall ι) (start : UInt64) (pushed : Nat)
  | pushChunk (r : RangeCall ι) (start : UInt64) (pushed : Nat) (p : Push E ι α)
  | wakeAll (r : RangeCall ι) (start : UInt64) (w : Wake)
  | leave (o : Outcome)

namespace RangeCall

variable {ι α : Type}

def stop (r : RangeCall ι) (start : UInt64) : UInt64 := Range.chunkEnd r.granularity start r.hi

def chunk (r : RangeCall ι) (start stop : UInt64) : Item ι α :=
  ⟨.small, .chunk r.id start stop r.panic⟩

end RangeCall

namespace Submit

open TurnMove

variable {Q E D ι α : Type}

def afterInline : Option (ι × Nat) → Submit E ι α
  | none => .leave .returned
  | some handle => .keep handle

def accept (p : Pool Q ι α) : Order ι α → TurnMove Q ι α (Submit E ι α)
  | .task id layout (.answer v) panic =>
    let slot := p.slots.length
    stay { p with slots := p.slots ++ [{}] }
      (.push (.aim ⟨layout, .task id (.answer v) panic (some slot)⟩) (some (id, slot)))
  | .task id layout work panic => stay p (.push (.aim ⟨layout, .task id work panic none⟩) none)
  | .range id lo hi panic =>
    if lo < hi then
      stay p (.cut ⟨id, hi, Range.granularity p.size p.minGranularity lo hi, panic⟩ lo 0)
    else stay p (.leave .returned)

def resume (o : Outcome) : Submit E ι α → Submit E ι α
  | .inline handle? =>
    match o with
    | .returned => afterInline handle?
    | .panicked payload => .leave (.panicked payload)
  | s => s

/-- A range wakes sleepers for the chunks it pushed before it runs the rest of itself. -/
def moves [Queue Q (Item ι α) E D] [BEq ι] (p : Pool Q ι α) :
    Submit E ι α → List (TurnMove Q ι α (Submit E ι α))
  | .begin o => [accept p o]
  | .push s handle? => (s.moves p).map (.embed id (fun s => .stay (.push s handle?)) fun p r =>
      match r with
      | .ok _ => stay p (.wake .one handle?)
      | .error t => call p (.inline handle?) (.run t))
  | .wake w handle? => (w.moves p).map (.embed id (fun w => .stay (.wake w handle?))
      fun p _ => stay p (afterInline handle?))
  | .inline _ => []
  | .keep handle =>
    [stay { p with handles := handle :: p.handles.filter fun h => !h.1 == handle.1 }
      (.leave .returned)]
  | .cut r start pushed =>
    if start < r.hi then
      [stay p (.pushChunk r start pushed (.aim (r.chunk start (r.stop start))))]
    else [stay p (.wakeAll r start (.upTo pushed))]
  | .pushChunk r start pushed s =>
    (s.moves p).map (.embed id (fun s => .stay (.pushChunk r start pushed s)) fun p result =>
      match result with
      | .ok _ => stay p (.cut r (r.stop start) (pushed + 1))
      | .error _ => stay p (.wakeAll r start (.upTo pushed)))
  | .wakeAll r start w => (w.moves p).map (.embed id (fun w => .stay (.wakeAll r start w)) fun p _ =>
      if start < r.hi then call p (.inline none) (.run (r.chunk start r.hi))
      else stay p (.leave .returned))
  | .leave o => [TurnMove.leave p o]

end Submit

end WorkStealing.Pool
