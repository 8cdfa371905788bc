/-!
Calls that run in atomic steps on a shared state. A call stands at a point; a step takes the state
and the point to a new state and either a new point or the call's result. A point with no step is
blocked, and one with several leaves the choice open.
-/

namespace WorkStealing

inductive Move (S P R : Type) where
  | go (state : S) (point : P)
  | done (state : S) (result : R)
  deriving DecidableEq, Repr

structure Machine (S C P R : Type) where
  enter : C → P
  moves : S → P → List (Move S P R)

variable {S T C P Q R A : Type}

namespace Move

def state : Move S P R → S
  | .go s _ => s
  | .done s _ => s

/-- A step of a part, seen as a step of the whole: `lift` puts the part's state back, and
`finish` says how the whole goes on once the part has its result. -/
def embed (lift : S → T) (stay : P → Q) (finish : S → R → Move T Q A) : Move S P R → Move T Q A
  | .go s p => .go (lift s) (stay p)
  | .done s r => finish s r

theorem state_embed (lift : S → T) (stay : P → Q) (finish : S → R → Move T Q A)
    (h : ∀ s r, (finish s r).state = lift s) (m : Move S P R) :
    (m.embed lift stay finish).state = lift m.state := by
  cases m with
  | go s p => rfl
  | done s r => exact h s r

end Move

namespace Machine

variable (m : Machine S C P R)

def runFrom : Nat → S → P → Option (S × R)
  | 0, _, _ => none
  | n + 1, s, p =>
    match m.moves s p with
    | .go s p :: _ => runFrom n s p
    | .done s r :: _ => some (s, r)
    | [] => none

def run (budget : Nat) (s : S) (c : C) : Option (S × R) := m.runFrom budget s (m.enter c)

theorem runFrom_add {n : Nat} {s t : S} {p : P} {r : R} (k : Nat)
    (h : m.runFrom n s p = some (t, r)) : m.runFrom (n + k) s p = some (t, r) := by
  induction n generalizing s p with
  | zero => simp [runFrom] at h
  | succ n ih =>
    rw [Nat.succ_add]
    simp only [runFrom] at h ⊢
    split
    · rename_i eq; rw [eq] at h; exact ih h
    · rename_i eq; rw [eq] at h; exact h
    · rename_i eq; rw [eq] at h; exact h

def mapResult (f : R → A) : Machine S C P A where
  enter := m.enter
  moves s p := (m.moves s p).map (Move.embed id id fun s r => .done s (f r))

end Machine

end WorkStealing
