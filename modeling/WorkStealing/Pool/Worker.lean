import WorkStealing.Pool.Basic

namespace WorkStealing.Pool

variable {Q E D ι α : Type} [Queue Q (Item ι α) E D]

inductive Steal (D ι α : Type) where
  | next (offset : Nat)
  | try (offset : Nat) (d : D)
  | count (t : Item ι α)

namespace Steal

def start : Steal D ι α := .next 1

def moves (thief : Nat) (p : Pool Q ι α) :
    Steal D ι α → List (Move (Pool Q ι α) (Steal D ι α) (Option (Item ι α)))
  | .next offset =>
    if offset < p.size then
      [.go (p.bump thief fun c => { c with trySteals := c.trySteals + 1 })
        (.try offset (Queue.popping Q))]
    else [.done p none]
  | .try offset d =>
    let victim := (thief + offset) % p.size
    tryPop p victim d (.try offset) fun p t =>
      match t with
      | some t => .go (p.note (.taken t.closure.label thief victim)) (.count t)
      | none => .go p (.next (offset + 1))
  | .count t => [.done (p.bump thief fun c => { c with steals := c.steals + 1 }) (some t)]

end Steal

def tryOwn {P R : Type} (p : Pool Q ι α) (i : Nat) (d : D) (stay : D → P)
    (found : Pool Q ι α → Item ι α → Move (Pool Q ι α) P R)
    (nothing : Pool Q ι α → Move (Pool Q ι α) P R) : List (Move (Pool Q ι α) P R) :=
  tryPop p i d stay fun p t =>
    match t with
    | some t => found (p.note (.taken t.closure.label i i)) t
    | none => nothing p

inductive Recheck (D ι α : Type) where
  | phase
  | own (d : D)
  | steal (s : Steal D ι α)

inductive Finding (ι α : Type) where
  | task (t : Item ι α)
  | stop

def Recheck.moves (i : Nat) (p : Pool Q ι α) :
    Recheck D ι α → List (Move (Pool Q ι α) (Recheck D ι α) (Option (Finding ι α)))
  | .phase =>
    if p.phase? i = some .running then [.go p (.own (Queue.popping Q))]
    else [.done p (some .stop)]
  | .own d => tryOwn p i d .own (fun p t => .done p (some (.task t))) fun p => .go p (.steal .start)
  | .steal s => (s.moves i p).map (.embed id .steal fun p t => .done p (t.map .task))

def recheck (i : Nat) : Machine (Pool Q ι α) Unit (Recheck D ι α) (Option (Finding ι α)) :=
  ⟨fun _ => .phase, Recheck.moves i⟩

inductive Search (D ι α : Type) where
  | look
  | own (d : D)
  | spin (left : Nat)
  | steal (left : Nat) (s : Steal D ι α)
  | sleep (p : Gate.Sleep (Recheck D ι α) (Finding ι α))
  | count

def Search.moves (i : Nat) (p : Pool Q ι α) :
    Search D ι α → List (Move (Pool Q ι α) (Search D ι α) (Finding ι α))
  | .look =>
    if p.phase? i = some .running then [.go p (.own (Queue.popping Q))] else [.done p .stop]
  | .own d => tryOwn p i d .own (fun p t => .done p (.task t)) fun p => .go p (.spin p.spinCount)
  | .spin 0 => [.go p (.sleep .declare)]
  | .spin (left + 1) => [.go p (.steal left .start)]
  | .steal left s => (s.moves i p).map (.embed id (.steal left) fun p t =>
      match t with
      | some t => .done p (.task t)
      | none => .go p (.spin left))
  | .sleep s => (s.moves (recheck i) p).map (.embed id .sleep fun p found =>
      match found with
      | some (.task t) => .done p (.task t)
      | some .stop => .go p .look
      | none => .go p .count)
  | .count => [.go (p.bump i fun c => { c with semaphoreWaits := c.semaphoreWaits + 1 }) .look]

end WorkStealing.Pool
