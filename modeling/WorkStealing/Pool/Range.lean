namespace WorkStealing.Pool

namespace Range

/-- Four chunks for each worker, unless that would make them too short. -/
def granularity (workers : Nat) (least lo hi : UInt64) : UInt64 :=
  max ((hi - lo) / .ofNat (workers * 4)) least

def chunkEnd (granularity start hi : UInt64) : UInt64 := start + min granularity (hi - start)

end Range

end WorkStealing.Pool
