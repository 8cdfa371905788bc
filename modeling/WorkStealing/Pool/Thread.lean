import WorkStealing.Pool.Loop
import WorkStealing.Pool.Run
import WorkStealing.Pool.Shutdown
import WorkStealing.Pool.Submit

namespace WorkStealing.Pool

variable {Q E D ι α : Type} [Queue Q (Item ι α) E D] [BEq ι]

inductive Activity (E D ι α : Type) where
  | loop (i : Nat) (l : Loop D ι α)
  | run (t : Item ι α) (r : Run ι α)
  | submit (s : Submit E ι α)
  | shutdown (unwinding : Bool) (s : Shutdown D ι α)

def Callee.activity : Callee ι α → Activity E D ι α
  | .run t => .run t .begin
  | .submit o => .submit (.begin o)

namespace Activity

def moves (place : Place) (p : Pool Q ι α) :
    Activity E D ι α → List (TurnMove Q ι α (Activity E D ι α))
  | .loop i l => (l.moves i p).map (.map (.loop i))
  | .run t r => (r.moves place t p).map (.map (.run t))
  | .submit s => (s.moves p).map (.map .submit)
  | .shutdown unwinding s => (s.moves unwinding p).map (.map (.shutdown unwinding))

def resume (policy : PanicPolicy) (o : Outcome) : Activity E D ι α → Activity E D ι α
  | .loop i _ => .loop i (.resume policy o)
  | .run t r => .run t (r.resume o)
  | .submit s => .submit (s.resume o)
  | .shutdown unwinding s => .shutdown unwinding s

end Activity

inductive Call (ι α : Type) where
  | work (i : Nat)
  | submit (o : Order ι α)
  | shutdown (unwinding : Bool)
  | await (slot : Nat)

inductive Point (E D ι α : Type) where
  | busy (place : Place) (top : Activity E D ι α) (below : List (Activity E D ι α))
  | await (slot : Nat) (p : ResultSlot.Await)

inductive Reply (α : Type) where
  | left (o : Outcome)
  | joined (r : Except JoinError α)

def Call.enter : Call ι α → Point E D ι α
  | .work i => .busy (.worker i) (.loop i (.search .look)) []
  | .submit o => .busy .caller (.submit (.begin o)) []
  | .shutdown unwinding => .busy .caller (.shutdown unwinding .begin) []
  | .await slot => .await slot (.wait .peek)

def Point.land (place : Place) (below : List (Activity E D ι α)) :
    TurnMove Q ι α (Activity E D ι α) → Move (Pool Q ι α) (Point E D ι α) (Reply α)
  | .go p (.stay a) => .go p (.busy place a below)
  | .go p (.call a callee) => .go p (.busy place callee.activity (a :: below))
  | .done p o =>
    match below with
    | [] => .done p (.left o)
    | a :: below => .go p (.busy place (a.resume p.panicPolicy o) below)

def Point.moves (p : Pool Q ι α) :
    Point E D ι α → List (Move (Pool Q ι α) (Point E D ι α) (Reply α))
  | .busy place top below =>
    if p.aborted then [] else (top.moves place p).map (Point.land place below)
  | .await slot a =>
    if p.aborted then []
    else
      match p.slots[slot]? with
      | none => []
      | some s => (a.moves s).map (.embed (p.setSlot slot) (.await slot)
          fun s r => .done (p.setSlot slot s) (.joined r))

def calls : Machine (Pool Q ι α) (Call ι α) (Point E D ι α) (Reply α) := ⟨Call.enter, Point.moves⟩

end WorkStealing.Pool
