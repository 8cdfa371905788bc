import WorkStealing.Pool.Basic

namespace WorkStealing.Pool

variable {Q ι α X Y : Type}

inductive Callee (ι α : Type) where
  | run (t : Item ι α)
  | submit (o : Order ι α)

inductive Turn (ι α X : Type) where
  | stay (x : X)
  | call (x : X) (callee : Callee ι α)

def Turn.map (f : X → Y) : Turn ι α X → Turn ι α Y
  | .stay x => .stay (f x)
  | .call x callee => .call (f x) callee

abbrev TurnMove (Q ι α X : Type) := Move (Pool Q ι α) (Turn ι α X) Outcome

namespace TurnMove

def stay (p : Pool Q ι α) (x : X) : TurnMove Q ι α X := .go p (.stay x)

def call (p : Pool Q ι α) (x : X) (callee : Callee ι α) : TurnMove Q ι α X := .go p (.call x callee)

def leave (p : Pool Q ι α) (o : Outcome) : TurnMove Q ι α X := .done p o

def map (f : X → Y) : TurnMove Q ι α X → TurnMove Q ι α Y := .embed id (Turn.map f) .done

end TurnMove

def handOver (p : Pool Q ι α) (slot : Nat) (d : ResultSlot.Deliver α)
    (stay : ResultSlot.Deliver α → X) (finish : Pool Q ι α → Completer → TurnMove Q ι α X) :
    List (TurnMove Q ι α X) :=
  match p.slots[slot]? with
  | none => []
  | some s => (d.moves s).map (.embed (p.setSlot slot) (fun d => .stay (stay d))
      fun s c => finish (p.setSlot slot s) c)

end WorkStealing.Pool
