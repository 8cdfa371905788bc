import WorkStealing.Ring.Shuffle

/-!
A ring of slots. The tag of a slot tells whose turn it is: `pos` for the producer of that position,
`pos + 1` for its consumer, and `pos + capacity` for the producer one cycle later.
-/

namespace WorkStealing

structure CapacityError where
  capacity : UInt64
  deriving DecidableEq, Repr

namespace CapacityError

def message (e : CapacityError) : String :=
  s!"ring capacity must be a power of two and at least 2, got {e.capacity}"

def debug (e : CapacityError) : String := s!"CapacityError({e.capacity})"

end CapacityError

namespace Ring

structure Slot (α : Type) where
  tag : UInt64
  cell : Option α
  deriving DecidableEq, Repr

def isCapacity (n : UInt64) : Bool := 2 ≤ n && n &&& (n - 1) == 0

end Ring

/-- `back` is the next position to fill and `front` the next to empty. -/
structure Ring (α : Type) where
  slots : Array (Ring.Slot α)
  mask : UInt64
  shuffle : Ring.Shuffle
  back : UInt64 := 0
  front : UInt64 := 0
  deriving DecidableEq, Repr

namespace Ring

variable {α : Type}

def tagAll (shuffle : Shuffle) (capacity : Nat) : Array (Slot α) :=
  (List.range capacity).foldl
    (fun slots pos => slots.setIfInBounds (shuffle.index (.ofNat pos)).toNat ⟨.ofNat pos, none⟩)
    (Array.replicate capacity ⟨0, none⟩)

def new (capacity : UInt64) (slotSize : Option UInt64) : Except CapacityError (Ring α) :=
  if isCapacity capacity then
    let shuffle :=
      match slotSize with
      | some size => Shuffle.acrossLines capacity size
      | none => Shuffle.inOrder (capacity - 1)
    .ok ⟨tagAll shuffle capacity.toNat, capacity - 1, shuffle, 0, 0⟩
  else .error ⟨capacity⟩

def capacity (r : Ring α) : UInt64 := r.mask + 1

/-- Exact while nobody works on the ring and fewer than `2 ^ 64` values went in. -/
def length (r : Ring α) : UInt64 :=
  min (if r.back < r.front then 0 else r.back - r.front) r.capacity

def isEmpty (r : Ring α) : Bool := r.length == 0

def place (r : Ring α) (pos : UInt64) : Nat := (r.shuffle.index pos).toNat

def slot? (r : Ring α) (pos : UInt64) : Option (Slot α) := r.slots[r.place pos]?

def setTag (r : Ring α) (pos tag : UInt64) : Ring α :=
  { r with slots := r.slots.modify (r.place pos) fun s => { s with tag } }

def setCell (r : Ring α) (pos : UInt64) (cell : Option α) : Ring α :=
  { r with slots := r.slots.modify (r.place pos) fun s => { s with cell } }

end Ring

end WorkStealing
