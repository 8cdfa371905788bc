import WorkStealing.Gate.Basic
import WorkStealing.Queue.Basic
import WorkStealing.Queue.Error

namespace WorkStealing

structure Blocking (Q : Type) where
  base : Q
  gate : Gate := {}
  closed : Bool := false
  deriving DecidableEq, Repr

namespace Blocking

instance {Q : Type} : Gated (Blocking Q) := ⟨gate, fun q g => { q with gate := g }⟩

def defaultSpins : Nat := 100

variable {Q α E D : Type} [Queue Q α E D]

def setBase (q : Blocking Q) (b : Q) : Blocking Q := { q with base := b }

def tryBase {P R : Type} (q : Blocking Q) (d : D) (stay : D → P)
    (finish : Blocking Q → Option α → Move (Blocking Q) P R) : List (Move (Blocking Q) P R) :=
  (Queue.pop.moves q.base d).map (.embed q.setBase stay fun b v => finish (q.setBase b) v)

inductive Enqueue (α E : Type) where
  | flag (v : α)
  | push (e : E)
  | notify (n : Gate.Notify)
  deriving DecidableEq, Repr

def Enqueue.moves (q : Blocking Q) :
    Enqueue α E → List (Move (Blocking Q) (Enqueue α E) (Except (PushError α) Unit))
  | .flag v =>
    if q.closed then [.done q (.error (.closed v))] else [.go q (.push (Queue.pushing Q v))]
  | .push e => (Queue.push.moves q.base e).map (.embed q.setBase .push fun b r =>
      match r with
      | .ok _ => .go (q.setBase b) (.notify .one)
      | .error v => .done (q.setBase b) (.error (.full v)))
  | .notify n => Gate.notify q n .notify fun q _ => .done q (.ok ())

inductive Recheck (D : Type) where
  | first (d : D)
  | flag
  | last (d : D)
  deriving DecidableEq, Repr

def Recheck.moves (q : Blocking Q) :
    Recheck D → List (Move (Blocking Q) (Recheck D) (Option (Except PopError α)))
  | .first d => tryBase q d .first fun q v =>
      match v with
      | some v => .done q (some (.ok v))
      | none => .go q .flag
  | .flag => if q.closed then [.go q (.last (Queue.popping Q))] else [.done q none]
  | .last d => tryBase q d .last fun q v =>
      match v with
      | some v => .done q (some (.ok v))
      | none => .done q (some (.error .closed))

def recheck : Machine (Blocking Q) Unit (Recheck D) (Option (Except PopError α)) :=
  ⟨fun _ => .first (Queue.popping Q), Recheck.moves⟩

inductive Dequeue (α D : Type) where
  | spin (left : Nat) (d : D)
  | flag
  | drain (d : D)
  | sleep (p : Gate.Sleep (Recheck D) (Except PopError α))

def Dequeue.spins (Q : Type) {α E D : Type} [Queue Q α E D] : Nat → Dequeue α D
  | 0 => .flag
  | n + 1 => .spin n (Queue.popping Q)

/-- `spins` is how often a consumer tries the base before each sleep. -/
def Dequeue.moves (spins : Nat) (q : Blocking Q) :
    Dequeue α D → List (Move (Blocking Q) (Dequeue α D) (Except PopError α))
  | .spin left d => tryBase q d (.spin left) fun q v =>
      match v with
      | some v => .done q (.ok v)
      | none => .go q (Dequeue.spins Q left)
  | .flag => if q.closed then [.go q (.drain (Queue.popping Q))] else [.go q (.sleep .declare)]
  | .drain d => tryBase q d .drain fun q v =>
      match v with
      | some v => .done q (.ok v)
      | none => .done q (.error .closed)
  | .sleep p => (p.moves recheck q).map (.embed id .sleep fun q found =>
      match found with
      | some r => .done q r
      | none => .go q (Dequeue.spins Q spins))

inductive TryDequeue (D : Type) where
  | pop (d : D)
  | verdict
  deriving DecidableEq, Repr

def TryDequeue.moves (q : Blocking Q) :
    TryDequeue D → List (Move (Blocking Q) (TryDequeue D) (Except PopError α))
  | .pop d => tryBase q d .pop fun q v =>
      match v with
      | some v => .done q (.ok v)
      | none => .go q .verdict
  | .verdict => [.done q (.error (if q.closed then .closed else .empty))]

inductive Close where
  | raise
  | notify (n : Gate.Notify)
  deriving DecidableEq, Repr

def Close.moves (q : Blocking Q) : Close → List (Move (Blocking Q) Close Unit)
  | .raise => [.go { q with closed := true } (.notify .all)]
  | .notify n => Gate.notify q n .notify fun q _ => .done q ()

inductive Call (α : Type) where
  | enqueue (v : α)
  | dequeue
  | tryDequeue
  | close
  deriving DecidableEq, Repr

inductive Point (α E D : Type) where
  | enqueue (p : Enqueue α E)
  | dequeue (p : Dequeue α D)
  | tryDequeue (p : TryDequeue D)
  | close (p : Close)

inductive Reply (α : Type) where
  | pushed (r : Except (PushError α) Unit)
  | popped (r : Except PopError α)
  | closed

def Call.enter (Q : Type) {α E D : Type} [Queue Q α E D] (spins : Nat) : Call α → Point α E D
  | .enqueue v => .enqueue (.flag v)
  | .dequeue => .dequeue (Dequeue.spins Q spins)
  | .tryDequeue => .tryDequeue (.pop (Queue.popping Q))
  | .close => .close .raise

def Point.moves (spins : Nat) (q : Blocking Q) :
    Point α E D → List (Move (Blocking Q) (Point α E D) (Reply α))
  | .enqueue p => (p.moves q).map (.embed id .enqueue fun q r => .done q (.pushed r))
  | .dequeue p => (p.moves spins q).map (.embed id .dequeue fun q r => .done q (.popped r))
  | .tryDequeue p => (p.moves q).map (.embed id .tryDequeue fun q r => .done q (.popped r))
  | .close p => (p.moves q).map (.embed id .close fun q _ => .done q .closed)

def calls (spins : Nat) : Machine (Blocking Q) (Call α) (Point α E D) (Reply α) :=
  ⟨Call.enter Q spins, Point.moves spins⟩

end Blocking

end WorkStealing
