import WorkStealing.Machine

/-!
A counting semaphore. A positive `count` is the number of free permits and a negative one the number
of waiters that found none; `permits` are those handed to such waiters and not yet taken.
-/

namespace WorkStealing

structure Semaphore where
  count : Int64 := 0
  permits : Nat := 0
  deriving DecidableEq, Repr

namespace Semaphore

/-- A number of permits beyond the signed range starts the count below zero. -/
def ofPermits (n : UInt64) : Semaphore := ⟨n.toInt64, 0⟩

inductive Post where
  | add (n : Nat)
  | release (n : Nat)
  deriving DecidableEq, Repr

def Post.moves (s : Semaphore) : Post → List (Move Semaphore Post Unit)
  | .add n =>
    let added := { s with count := s.count + .ofNat n }
    if s.count < 0 then [.go added (.release (min s.count.toInt.natAbs n))] else [.done added ()]
  | .release n => [.done { s with permits := s.permits + n } ()]

inductive Wait where
  | subtract
  | acquire
  deriving DecidableEq, Repr

def Wait.moves (s : Semaphore) : Wait → List (Move Semaphore Wait Unit)
  | .subtract =>
    let taken := { s with count := s.count - 1 }
    if s.count ≤ 0 then [.go taken .acquire] else [.done taken ()]
  | .acquire =>
    match s.permits with
    | 0 => []
    | n + 1 => [.done { s with permits := n } ()]

inductive Attempt where
  | look
  | claim (seen : Int64)
  deriving DecidableEq, Repr

def Attempt.judge (s : Semaphore) (seen : Int64) : Move Semaphore Attempt Bool :=
  if 0 < seen then .go s (.claim seen) else .done s false

/-- A claim may fail even when the count is the one seen. -/
def Attempt.moves (s : Semaphore) : Attempt → List (Move Semaphore Attempt Bool)
  | .look => [judge s s.count]
  | .claim seen =>
    if s.count = seen then [.done { s with count := seen - 1 } true, judge s s.count]
    else [judge s s.count]

inductive Call where
  | post
  | postMany (n : Nat)
  | wait
  | tryWait
  deriving DecidableEq, Repr

inductive Point where
  | offer (n : Nat)
  | post (p : Post)
  | wait (p : Wait)
  | attempt (p : Attempt)
  deriving DecidableEq, Repr

inductive Reply where
  | posted
  | overflow (n : Nat)
  | passed
  | tried (taken : Bool)
  deriving DecidableEq, Repr

def largestPost : Nat := 0x7fffffffffffffff

def overflowMessage (n : Nat) : String :=
  s!"semaphore post of {n} permits overflows the count"

def Reply.panic? : Reply → Option String
  | .overflow n => some (overflowMessage n)
  | _ => none

def Call.enter : Call → Point
  | .post => .post (.add 1)
  | .postMany n => .offer n
  | .wait => .wait .subtract
  | .tryWait => .attempt .look

def Point.moves (s : Semaphore) : Point → List (Move Semaphore Point Reply)
  | .offer n =>
    if n = 0 then [.done s .posted]
    else if largestPost < n then [.done s (.overflow n)]
    else [.go s (.post (.add n))]
  | .post p => (p.moves s).map (.embed id .post fun s _ => .done s .posted)
  | .wait p => (p.moves s).map (.embed id .wait fun s _ => .done s .passed)
  | .attempt p => (p.moves s).map (.embed id .attempt fun s b => .done s (.tried b))

def calls : Machine Semaphore Call Point Reply := ⟨Call.enter, Point.moves⟩

end Semaphore

end WorkStealing
