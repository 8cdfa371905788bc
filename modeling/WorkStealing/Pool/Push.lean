import WorkStealing.Pool.Basic

namespace WorkStealing.Pool

variable {Q E D ι α : Type} [Queue Q (Item ι α) E D]

inductive Push (E ι α : Type) where
  | aim (t : Item ι α)
  | offer (t : Item ι α) (start offset : Nat) (e : E)
  | record (index : Nat)

def Push.moves (p : Pool Q ι α) :
    Push E ι α → List (Move (Pool Q ι α) (Push E ι α) (Except (Item ι α) Nat))
  | .aim t => [.go p (.offer t (p.lastPlaced + 1) 0 (Queue.pushing Q t))]
  | .offer t start offset e =>
    let index := (start + offset) % p.size
    tryPush p index e (.offer t start offset) fun p r =>
      match r with
      | .ok _ => .go (p.note (.queued t.closure.label index)) (.record index)
      | .error t =>
        if offset + 1 < p.size then .go p (.offer t start (offset + 1) (Queue.pushing Q t))
        else .done p (.error t)
  | .record index => [.done { p with lastPlaced := index } (.ok index)]

inductive Wake where
  | notify (n : Gate.Notify)
  | count (posted : Nat)
  deriving DecidableEq, Repr

namespace Wake

def one : Wake := .notify .one

def upTo (n : Nat) : Wake := .notify (.look n)

def moves (p : Pool Q ι α) : Wake → List (Move (Pool Q ι α) Wake Unit)
  | .notify n => Gate.notify p n .notify fun p posted => .go p (.count posted)
  | .count posted => [.done { p with semaphorePosts := p.semaphorePosts + posted } ()]

end Wake

end WorkStealing.Pool
