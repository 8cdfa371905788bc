import WorkStealing.Queue.Basic

/-!
A chain of nodes that grows without bound. `head` is the node swapped in last; `stub` is the node
before the oldest value, its own value already taken. Addresses are not used twice, and a freed node
offers no step to whoever would touch it. Results carry the node of the value.
-/

namespace WorkStealing

namespace Linked

structure Node (α : Type) where
  value : Option α := none
  next : Option Nat := none
  freed : Bool := false
  deriving DecidableEq, Repr

end Linked

structure Linked (α : Type) where
  nodes : Array (Linked.Node α) := #[{}]
  head : Nat := 0
  stub : Nat := 0
  deriving DecidableEq, Repr

namespace Linked

variable {α : Type}

def live? (q : Linked α) (a : Nat) : Option (Node α) := q.nodes[a]?.filter fun n => !n.freed

def modify (q : Linked α) (a : Nat) (f : Node α → Node α) : Linked α :=
  { q with nodes := q.nodes.modify a f }

def setNext (q : Linked α) (a b : Nat) : Linked α := q.modify a fun n => { n with next := some b }

def takeValue (q : Linked α) (a : Nat) : Linked α := q.modify a fun n => { n with value := none }

def free (q : Linked α) (a : Nat) : Linked α :=
  q.modify a fun n => { n with value := none, freed := true }

def isEmpty (q : Linked α) : Bool := ((q.live? q.stub).bind Node.next).isNone

inductive Push (α : Type) where
  | swap (v : α)
  | link (previous node : Nat)
  deriving DecidableEq, Repr

/-- A push is complete in two steps: between them its node is in the chain's head but cannot be
reached from the stub. -/
def Push.moves (q : Linked α) : Push α → List (Move (Linked α) (Push α) (Except α Nat))
  | .swap v =>
    let node := q.nodes.size
    [.go { q with nodes := q.nodes.push { value := some v }, head := node } (.link q.head node)]
  | .link previous node =>
    match q.live? previous with
    | none => []
    | some _ => [.done (q.setNext previous node) (.ok node)]

inductive Pop (α : Type) where
  | advance
  | discard (stub node : Nat) (v : Option α)
  deriving DecidableEq, Repr

/-- The step from `advance` is what the consumers' lock covers. -/
def Pop.moves (q : Linked α) : Pop α → List (Move (Linked α) (Pop α) (Option (Nat × α)))
  | .advance =>
    match q.live? q.stub with
    | none => []
    | some s =>
      match s.next with
      | none => [.done q none]
      | some a =>
        match q.live? a with
        | none => []
        | some n => [.go { q.takeValue a with stub := a } (.discard q.stub a n.value)]
  | .discard stub node v =>
    match q.live? stub with
    | none => []
    | some _ => [.done (q.free stub) (v.map fun v => (node, v))]

def push : Machine (Linked α) α (Push α) (Except α Nat) := ⟨.swap, Push.moves⟩

def pop : Machine (Linked α) Unit (Pop α) (Option (Nat × α)) := ⟨fun _ => .advance, Pop.moves⟩

instance : Queue (Linked α) α (Push α) (Pop α) where
  push := push.mapResult fun r => r.map fun _ => ()
  pop := pop.mapResult fun r => r.map Prod.snd

/-- Frees the chain from `a` on, letting go of each value left in it. They go after those in `gone`,
which has the latest first. -/
def disposeFrom : Nat → Linked α → Option Nat → List α → Linked α × List α
  | 0, q, _, gone => (q, gone.reverse)
  | _ + 1, q, none, gone => (q, gone.reverse)
  | n + 1, q, some a, gone =>
    match q.live? a with
    | none => (q, gone.reverse)
    | some node => disposeFrom n (q.free a) node.next (node.value.toList ++ gone)

theorem disposeFrom_eq (n : Nat) (q : Linked α) (a : Option Nat) (gone : List α) :
    disposeFrom n q a gone = (disposeFrom n q a []).map id (gone.reverse ++ ·) := by
  induction n generalizing q a gone with
  | zero => simp [disposeFrom]
  | succ n ih =>
    cases a with
    | none => simp [disposeFrom]
    | some a =>
      simp only [disposeFrom]
      split
      · simp
      · rename_i node h
        rw [ih _ _ (node.value.toList ++ gone), ih _ _ (node.value.toList ++ [])]
        cases node.value <;> simp [Prod.map]

def dispose (q : Linked α) : Linked α × List α := disposeFrom q.nodes.size q (some q.stub) []

instance : Holding (Linked α) α where
  length? q := if q.isEmpty then some 0 else none
  items q := q.dispose.2

end Linked

end WorkStealing
