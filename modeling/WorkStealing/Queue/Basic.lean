import WorkStealing.Machine

namespace WorkStealing

class Queue (Q : Type) (α E D : outParam Type) where
  push : Machine Q α E (Except α Unit)
  pop : Machine Q Unit D (Option α)

/-- What can be told of a queue nobody is working on: its length if it keeps one, and its items,
oldest first, as disposing of it lets go of them. -/
class Holding (Q : Type) (α : outParam Type) where
  length? : Q → Option Nat
  items : Q → List α

namespace Queue

section

variable (Q : Type) {α E D : Type} [Queue Q α E D]

def pushing (v : α) : E := (push : Machine Q α E (Except α Unit)).enter v

def popping : D := (pop : Machine Q Unit D (Option α)).enter ()

end

variable {Q α E D : Type} [Queue Q α E D]

def pace : Nat := 5

def enqueue (q : Q) (v : α) : Option (Q × Except α Unit) := push.run pace q v

def dequeue (q : Q) : Option (Q × Option α) := pop.run pace q ()

/-- Takes up to `n` values, stopping early at a pop that finds none. They go after those in `taken`,
which has the latest first. -/
def drainOnto : Nat → Q → List α → Option (Q × List α)
  | 0, q, taken => some (q, taken.reverse)
  | n + 1, q, taken =>
    match dequeue q with
    | some (q, some v) => drainOnto n q (v :: taken)
    | some (q, none) => some (q, taken.reverse)
    | none => none

def drain (n : Nat) (q : Q) : Option (Q × List α) := drainOnto n q []

theorem drainOnto_eq (n : Nat) (q : Q) (taken : List α) :
    drainOnto n q taken = (drain n q).map (Prod.map id (taken.reverse ++ ·)) := by
  induction n generalizing q taken with
  | zero => simp [drain, drainOnto]
  | succ n ih =>
    simp only [drain, drainOnto]
    split
    · rename_i q v h
      rw [ih q (v :: taken), ih q [v]]
      cases drain n q <;> simp [Prod.map]
    · simp
    · rfl

theorem drain_zero (q : Q) : drain 0 q = some (q, []) := rfl

theorem drain_succ (n : Nat) (q : Q) :
    drain (n + 1) q = (dequeue q).bind fun
      | (q, some v) => (drain n q).map (Prod.map id (v :: ·))
      | (q, none) => some (q, []) := by
  simp only [drain, drainOnto]
  split
  · rename_i q v h
    simp [h, drainOnto_eq n q [v], drain]
  · rename_i h
    simp [h]
  · rename_i h
    simp [h]

/-- Offers each value in turn, going on past refusals, and keeps the refused ones. They go after
those in `refused`, which has the latest first. -/
def fillOnto : Q → List α → List α → Option (Q × List α)
  | q, [], refused => some (q, refused.reverse)
  | q, v :: vs, refused =>
    match enqueue q v with
    | some (q, .ok _) => fillOnto q vs refused
    | some (q, .error v) => fillOnto q vs (v :: refused)
    | none => none

def fill (q : Q) (vs : List α) : Option (Q × List α) := fillOnto q vs []

theorem fillOnto_eq (q : Q) (vs refused : List α) :
    fillOnto q vs refused = (fill q vs).map (Prod.map id (refused.reverse ++ ·)) := by
  induction vs generalizing q refused with
  | nil => simp [fill, fillOnto]
  | cons v vs ih =>
    simp only [fill, fillOnto]
    split
    · exact ih _ _
    · rename_i q v h
      rw [ih q (v :: refused), ih q [v]]
      cases fill q vs <;> simp [Prod.map]
    · rfl

theorem fill_nil (q : Q) : fill q [] = some (q, []) := rfl

theorem fill_cons (q : Q) (v : α) (vs : List α) :
    fill q (v :: vs) = (enqueue q v).bind fun
      | (q, .ok _) => fill q vs
      | (q, .error v) => (fill q vs).map (Prod.map id (v :: ·)) := by
  simp only [fill, fillOnto]
  split
  · rename_i h
    simp [h]
  · rename_i q v h
    simp [h, fillOnto_eq q vs [v], fill]
  · rename_i h
    simp [h]

end Queue

end WorkStealing
