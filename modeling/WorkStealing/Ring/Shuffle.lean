namespace WorkStealing.Ring

/-- `low` and `middle` mask the two groups of `width` bits that trade places, and `high` the bits
above them. -/
structure Shuffle where
  width : UInt64
  low : UInt64
  middle : UInt64
  high : UInt64
  deriving DecidableEq, Repr

namespace Shuffle

def lineSize : Nat := 64

def inOrder (mask : UInt64) : Shuffle := ⟨0, 0, 0, mask⟩

def widthFrom (n w : Nat) : Nat :=
  if 1 <<< w < n then widthFrom n (w + 1) else w
termination_by n - w
decreasing_by have := Nat.one_shiftLeft w ▸ w.lt_two_pow_self; omega

def slotsPerLine (slotSize : Nat) : Nat := (lineSize + slotSize - 1) / slotSize

def ofWidth (mask width : UInt64) : Shuffle :=
  let low := ((1 : UInt64) <<< width) - 1
  let middle := low <<< width
  ⟨width, low, middle, mask &&& ~~~(low ||| middle)⟩

/-- Slots as large as a line, and rings too small for both groups of bits, stay in order. -/
def acrossLines (capacity slotSize : UInt64) : Shuffle :=
  let mask := capacity - 1
  if slotSize = 0 ∨ lineSize ≤ slotSize.toNat then inOrder mask
  else
    let width := widthFrom (slotsPerLine slotSize.toNat) 1
    if capacity.toNat < 1 <<< (width * 2) then inOrder mask else ofWidth mask (.ofNat width)

def index (s : Shuffle) (pos : UInt64) : UInt64 :=
  (pos &&& s.high) ||| ((pos &&& s.middle) >>> s.width) ||| ((pos &&& s.low) <<< s.width)

theorem index_inOrder (mask pos : UInt64) : (inOrder mask).index pos = pos &&& mask := by
  simp [inOrder, index]

end Shuffle

end WorkStealing.Ring
