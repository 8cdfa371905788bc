import WorkStealing.Pool.Turn

namespace WorkStealing.Pool

inductive Run (ι α : Type) where
  | begin
  | held
  | children (left : List (Order ι α))
  | submitting (left : List (Order ι α))
  | deliver (slot : Nat) (w : Writer) (d : ResultSlot.Deliver α) (o : Outcome)
  | leave (o : Outcome)

def Job.panic? {ι α : Type} (place : Place) : Job ι α → Option Payload
  | .task _ _ panic _ => panic
  | .chunk _ _ _ panic => panic.bind fun r => r.at? place

def Job.holds? {ι α : Type} (place : Place) : Job ι α → Option Nat
  | .task _ .hold _ _ =>
    match place with
    | .worker i => some i
    | .caller => none
  | _ => none

namespace Run

open TurnMove

variable {Q ι α : Type}

def outcome (place : Place) (t : Item ι α) : Outcome := .ofPanic (t.closure.panic? place)

def release (slot : Nat) (c : Completer) (o : Outcome) : Run ι α :=
  match c.drop o.isPanic with
  | some d => .deliver slot .destructor d o
  | none => .leave o

/-- A task that panics before it has answered still has its completer when it unwinds. -/
def afterBegin (place : Place) (t : Item ι α) : Run ι α :=
  match t.closure with
  | .task _ (.answer v) none (some slot) =>
    .deliver slot .complete (Completer.complete v) .returned
  | .task _ (.answer _) (some payload) (some slot) => release slot {} (.panicked payload)
  | .task _ (.spawn orders) _ _ => .children orders
  | _ => .leave (outcome place t)

def isLetGo (place : Place) (p : Pool Q ι α) : Bool :=
  match place with
  | .worker i => !p.isHeld i
  | .caller => true

/-- A panic of a child that ran inline unwinds its parent. -/
def resume (o : Outcome) : Run ι α → Run ι α
  | .submitting left =>
    match o with
    | .returned => .children left
    | .panicked payload => .leave (.panicked payload)
  | r => r

def moves (place : Place) (t : Item ι α) (p : Pool Q ι α) :
    Run ι α → List (TurnMove Q ι α (Run ι α))
  | .begin =>
    match t.closure.holds? place with
    | some i => [stay ((p.setHeld i true).note (.began t.closure.label place true)) .held]
    | none => [stay (p.note (.began t.closure.label place false)) (afterBegin place t)]
  | .held => if isLetGo place p then [stay p (.leave (outcome place t))] else []
  | .children [] => [stay p (.leave (outcome place t))]
  | .children (o :: left) => [call p (.submitting left) (.submit o)]
  | .submitting _ => []
  | .deliver slot w d o => handOver p slot d (.deliver slot w · o) fun p c =>
      match w with
      | .complete => stay p (release slot c o)
      | .destructor => stay p (.leave o)
  | .leave o => [TurnMove.leave (p.noteAll (t.leave.map fun j => .ended j.label place)) o]

theorem release_panicked (slot : Nat) (payload : Payload) :
    (release slot {} (.panicked payload) : Run ι α) =
      .deliver slot .destructor (.store (Completer.verdict true)) (.panicked payload) := rfl

theorem release_delivered (slot : Nat) (o : Outcome) :
    (release slot { delivered := true } o : Run ι α) = .leave o := rfl

theorem moves_leave (place : Place) (t : Item ι α) (p : Pool Q ι α) (o : Outcome) :
    (leave o).moves place t p = [TurnMove.leave (p.note (.ended t.closure.label place)) o] := by
  rw [moves, Task.leave_eq]
  rfl

end Run

end WorkStealing.Pool
