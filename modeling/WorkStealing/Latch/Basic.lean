import WorkStealing.Semaphore.Basic

/-!
A latch that opens for good once its target of posts is reached. The counter and the number of
registered waiters share one word, the counter in the upper half, so a post that opens the latch
sees exactly the waiters registered before it. The semaphore they wait on is made when first needed:
of several makers one installs its own and the others free theirs.
-/

namespace WorkStealing

structure Latch where
  word : Int64
  shared : Option Nat := none
  semaphores : List (Option Semaphore) := []
  deriving DecidableEq, Repr

namespace Latch

def shift : Int64 := 32

def remaining (word : Int64) : Int32 := (word >>> shift).toInt32

def registered (word : Int64) : UInt32 := word.toUInt64.toUInt32

def counts (n : Int32) : Int64 := n.toInt64 <<< shift

inductive Refusal where
  | target (n : Int32)
  | amount (n : Int32)
  deriving DecidableEq, Repr

def Refusal.message : Refusal → String
  | .target n => s!"latch target must be positive, got {n}"
  | .amount n => s!"latch post amount must be positive, got {n}"

def new (target : Int32) : Except Refusal Latch :=
  if 0 < target then .ok ⟨counts target, none, []⟩ else .error (.target target)

def count (l : Latch) : Int32 := remaining l.word

def waiters (l : Latch) : UInt32 := registered l.word

def isReleased (l : Latch) : Bool := l.count ≤ 0

def debug (l : Latch) : String :=
  s!"CountingLatch \x7b count: {l.count}, waiters: {l.waiters} \x7d"

def countDown (word : Int64) (n : Int32) : Int64 :=
  word - counts (if remaining word < n then remaining word else n)

def semaphore? (l : Latch) (a : Nat) : Option Semaphore := l.semaphores[a]?.join

def setSemaphore (l : Latch) (a : Nat) (s : Option Semaphore) : Latch :=
  { l with semaphores := l.semaphores.set a s }

inductive Locate where
  | look
  | install (own : Nat)
  deriving DecidableEq, Repr

def Locate.moves (l : Latch) : Locate → List (Move Latch Locate Nat)
  | .look =>
    match l.shared with
    | some a => [.done l a]
    | none =>
      [.go { l with semaphores := l.semaphores ++ [some {}] } (.install l.semaphores.length)]
  | .install own =>
    match l.shared with
    | none => [.done { l with shared := some own } own]
    | some a => [.done (l.setSemaphore own none) a]

inductive Post where
  | look (n : Int32)
  | swap (n : Int32) (seen : Int64)
  | locate (waiters : UInt32) (p : Locate)
  | wake (a : Nat) (p : Semaphore.Post)
  deriving DecidableEq, Repr

def Post.judge (l : Latch) (n : Int32) (seen : Int64) : Move Latch Post Bool :=
  if remaining seen ≤ 0 then .done l false else .go l (.swap n seen)

def Post.proceed (l : Latch) : Move Latch Post Bool :=
  if 0 < l.count then .done l false
  else if l.waiters = 0 then .done l false
  else .go l (.locate l.waiters .look)

/-- Answers whether this post opened the latch for somebody. A swap may fail even when the word is
the one seen. -/
def Post.moves (l : Latch) : Post → List (Move Latch Post Bool)
  | .look n => [judge l n l.word]
  | .swap n seen =>
    if l.word = seen then [proceed { l with word := countDown seen n }, judge l n l.word]
    else [judge l n l.word]
  | .locate waiters p => (p.moves l).map (.embed id (.locate waiters)
      fun l a => .go l (.wake a (.add waiters.toNat)))
  | .wake a p =>
    match l.semaphore? a with
    | none => []
    | some s => (p.moves s).map (.embed (fun s => l.setSemaphore a (some s)) (.wake a)
        fun s _ => .done (l.setSemaphore a (some s)) true)

inductive Wait where
  | peek
  | register
  | undo
  | locate (p : Locate)
  | sleep (a : Nat) (p : Semaphore.Wait)
  | leave
  deriving DecidableEq, Repr

/-- The result is the counter that a woken waiter found above zero, if it did. -/
def Wait.moves (l : Latch) : Wait → List (Move Latch Wait (Option Int32))
  | .peek => if l.count ≤ 0 then [.done l none] else [.go l .register]
  | .register =>
    let counted := { l with word := l.word + 1 }
    if l.count ≤ 0 then [.go counted .undo] else [.go counted (.locate .look)]
  | .undo => [.done { l with word := l.word - 1 } none]
  | .locate p => (p.moves l).map (.embed id .locate fun l a => .go l (.sleep a .subtract))
  | .sleep a p =>
    match l.semaphore? a with
    | none => []
    | some s => (p.moves s).map (.embed (fun s => l.setSemaphore a (some s)) (.sleep a)
        fun s _ => .go (l.setSemaphore a (some s)) .leave)
  | .leave =>
    [.done { l with word := l.word - 1 } (if l.count ≤ 0 then none else some l.count)]

end Latch

end WorkStealing
