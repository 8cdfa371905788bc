namespace WorkStealing

structure Layout where
  size : Nat
  align : Nat
  deriving DecidableEq, Repr

namespace Layout

def inlineSize : Nat := 48

def inlineAlign : Nat := 16

def isInline (l : Layout) : Bool := l.size ≤ inlineSize && l.align ≤ inlineAlign

def small : Layout := ⟨24, 8⟩

def large : Layout := ⟨256, 8⟩

end Layout

inductive Payload where
  | message (text : String)
  | other
  deriving DecidableEq, Repr

def Payload.text : Payload → String
  | .message s => s
  | .other => "unknown payload"

structure Task (β : Type) where
  layout : Layout
  closure : β
  deriving DecidableEq, Repr

namespace Task

variable {β : Type}

/-- Reading the buffer moves the closure out, but its bytes stay where they are: a buffer that is
destroyed frees them whether or not they have been read. -/
structure Buffer (β : Type) where
  bytes : β
  deriving DecidableEq, Repr

namespace Buffer

def read (b : Buffer β) : β := b.bytes

def drop (b : Buffer β) : List β := [b.bytes]

end Buffer

/-- What a call owns while it runs, and destroys when it returns or unwinds. A shielded buffer has
no destructor, and a box that has been moved out of has nothing left but its memory. -/
inductive Local (β : Type) where
  | closure (f : β)
  | shielded (b : Buffer β)
  | vacated

def Local.drop : Local β → List β
  | .closure f => [f]
  | .shielded _ => []
  | .vacated => []

inductive Storage (β : Type) where
  | inline (b : Buffer β)
  | boxed (f : β)
  deriving DecidableEq, Repr

namespace Storage

def of (l : Layout) (f : β) : Storage β := if l.isInline then .inline ⟨f⟩ else .boxed f

def closure : Storage β → β
  | .inline b => b.bytes
  | .boxed f => f

/-- The closure that is called comes first: it is destroyed before what it was moved out of. -/
def call : Storage β → List (Local β)
  | .inline b => [.closure b.read, .shielded b]
  | .boxed f => [.closure f, .vacated]

def drop : Storage β → List β
  | .inline b => b.drop
  | .boxed f => [f]

@[simp]
theorem closure_of (l : Layout) (f : β) : (of l f).closure = f := by
  unfold of
  split <;> rfl

theorem drop_call (s : Storage β) : s.call.flatMap Local.drop = [s.closure] := by
  cases s <;> rfl

theorem drop_eq (s : Storage β) : s.drop = [s.closure] := by
  cases s <;> rfl

end Storage

def storage (t : Task β) : Storage β := .of t.layout t.closure

def isInline (t : Task β) : Bool :=
  match t.storage with
  | .inline _ => true
  | .boxed _ => false

def debug (t : Task β) : String := s!"Task \x7b inline: {t.isInline} \x7d"

/-- What is freed as the call of the closure is left, by a return or by a panic. -/
def leave (t : Task β) : List β := t.storage.call.flatMap Local.drop

def drop (t : Task β) : List β := t.storage.drop

theorem leave_eq (t : Task β) : t.leave = [t.closure] := by
  rw [leave, Storage.drop_call, storage, Storage.closure_of]

theorem drop_eq (t : Task β) : t.drop = [t.closure] := by
  rw [drop, Storage.drop_eq, storage, Storage.closure_of]

inductive Happening (β : Type) where
  | ran (closure : β)
  | freed (closure : β)
  deriving DecidableEq, Repr

def run (t : Task β) : List (Happening β) := .ran t.storage.closure :: t.leave.map .freed

def discard (t : Task β) : List (Happening β) := t.drop.map .freed

theorem run_eq (t : Task β) : t.run = [.ran t.closure, .freed t.closure] := by
  rw [run, leave_eq, storage, Storage.closure_of, List.map_singleton]

theorem discard_eq (t : Task β) : t.discard = [.freed t.closure] := by
  rw [discard, drop_eq, List.map_singleton]

end Task

end WorkStealing
