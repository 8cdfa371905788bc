namespace WorkStealing

inductive PushError (α : Type) where
  | full (v : α)
  | closed (v : α)
  deriving DecidableEq, Repr

namespace PushError

variable {α : Type}

def value : PushError α → α
  | .full v => v
  | .closed v => v

def message : PushError α → String
  | .full _ => "queue is full"
  | .closed _ => "queue is closed"

end PushError

inductive PopError where
  | empty
  | closed
  deriving DecidableEq, Repr

namespace PopError

def message : PopError → String
  | .empty => "queue is empty"
  | .closed => "queue is closed"

def debug : PopError → String
  | .empty => "Empty"
  | .closed => "Closed"

end PopError

end WorkStealing
