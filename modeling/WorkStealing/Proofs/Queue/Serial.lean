import WorkStealing.Queue.Basic

namespace WorkStealing

variable {S C P R : Type}

inductive Machine.Ends (m : Machine S C P R) : S → P → S → R → Prop
  | done {s t : S} {p : P} {x : R} (h : .done t x ∈ m.moves s p) : m.Ends s p t x
  | go {s u t : S} {p q : P} {x : R} (h : .go u q ∈ m.moves s p) (next : m.Ends u q t x) :
    m.Ends s p t x

namespace Machine

variable {m : Machine S C P R} {s t : S} {p : P} {x : R}

theorem ends_of_runFrom {n : Nat} (h : m.runFrom n s p = some (t, x)) : m.Ends s p t x := by
  induction n generalizing s p with
  | zero => simp [runFrom] at h
  | succ n ih =>
    simp only [runFrom] at h
    split at h
    · rename_i hm
      exact .go (by simp [hm]) (ih h)
    · rename_i hm
      obtain ⟨rfl, rfl⟩ := Prod.mk.inj (Option.some.inj h)
      exact .done (by simp [hm])
    · cases h

def Only (m : Machine S C P R) (I : S → P → Prop) (t : S) (x : R) : Prop :=
  ∀ s p, I s p → ∀ a ∈ m.moves s p,
    match a with
    | .go u q => I u q
    | .done u y => u = t ∧ y = x

theorem Only.eq {I : S → P → Prop} (h : m.Only I t x) {u : S} {y : R} (hs : I s p)
    (he : m.Ends s p u y) : u = t ∧ y = x := by
  induction he with
  | done hm => exact h _ _ hs _ hm
  | go hm _ ih => exact ih (h _ _ hs _ hm)

end Machine

namespace Queue

inductive Request (α : Type) where
  | push (v : α)
  | pop
  deriving DecidableEq, Repr

inductive Outcome (α : Type) where
  | pushed (r : Except α Unit)
  | popped (r : Option α)
  deriving Repr

variable {Q α E D : Type}

def Outcome.accepted : Outcome α → Bool
  | .pushed (.ok _) => true
  | _ => false

def serve (n : Nat) (vs : List α) : Request α → Outcome α × List α
  | .push v => if vs.length < n then (.pushed (.ok ()), vs ++ [v]) else (.pushed (.error v), vs)
  | .pop => (.popped vs.head?, vs.tail)

def serveAll (n : Nat) (vs : List α) : List (Request α) → List (Outcome α) × List α
  | [] => ([], vs)
  | c :: cs =>
    let (x, vs) := serve n vs c
    let (xs, vs) := serveAll n vs cs
    (x :: xs, vs)

variable [Queue Q α E D]

inductive Serves : Q → Request α → Outcome α → Q → Prop
  | push {q t : Q} {v : α} {x : Except α Unit} (h : Queue.push.Ends q (pushing Q v) t x) :
    Serves q (.push v) (.pushed x) t
  | pop {q t : Q} {x : Option α} (h : Queue.pop.Ends q (popping Q) t x) :
    Serves q .pop (.popped x) t

inductive Serial : Q → List (Request α) → List (Outcome α) → Q → Prop
  | nil (q : Q) : Serial q [] [] q
  | cons {q t u : Q} {c : Request α} {cs : List (Request α)} {x : Outcome α}
    {xs : List (Outcome α)} (first : Serves q c x t) (rest : Serial t cs xs u) :
    Serial q (c :: cs) (x :: xs) u

def Gives (q : Q) (c : Request α) (x : Outcome α) (t : Q) : Prop :=
  ∀ y u, Serves q c y u ↔ y = x ∧ u = t

def Answers (q : Q) (cs : List (Request α)) (xs : List (Outcome α)) (t : Q) : Prop :=
  ∀ ys u, Serial q cs ys u ↔ ys = xs ∧ u = t

variable {q t u : Q}

theorem gives_push {v : α} {x : Except α Unit} {I : Q → E → Prop}
    (h : enqueue q v = some (t, x)) (enter : I q (pushing Q v)) (only : push.Only I t x) :
    Gives q (.push v) (.pushed x) t := by
  intro y u
  constructor
  · rintro ⟨he⟩
    obtain ⟨rfl, rfl⟩ := only.eq enter he
    exact ⟨rfl, rfl⟩
  · rintro ⟨rfl, rfl⟩
    exact .push (Machine.ends_of_runFrom h)

theorem gives_pop {x : Option α} {I : Q → D → Prop} (h : dequeue q = some (t, x))
    (enter : I q (popping Q)) (only : pop.Only I t x) : Gives q .pop (.popped x) t := by
  intro y u
  constructor
  · intro hs
    cases hs with
    | pop he =>
      obtain ⟨rfl, rfl⟩ := only.eq enter he
      exact ⟨rfl, rfl⟩
  · rintro ⟨rfl, rfl⟩
    exact .pop (Machine.ends_of_runFrom h)

theorem answers_nil (q : Q) : Answers q [] [] q := by
  intro ys u
  constructor
  · rintro ⟨⟩
    exact ⟨rfl, rfl⟩
  · rintro ⟨rfl, rfl⟩
    exact .nil _

theorem Gives.answers_cons {c : Request α} {cs : List (Request α)} {x : Outcome α}
    {xs : List (Outcome α)} (h : Gives q c x t) (hs : Answers t cs xs u) :
    Answers q (c :: cs) (x :: xs) u := by
  intro ys w
  constructor
  · rintro (_ | ⟨first, rest⟩)
    obtain ⟨rfl, rfl⟩ := (h _ _).1 first
    obtain ⟨rfl, rfl⟩ := (hs _ _).1 rest
    exact ⟨rfl, rfl⟩
  · rintro ⟨rfl, rfl⟩
    exact .cons ((h _ _).2 ⟨rfl, rfl⟩) ((hs _ _).2 ⟨rfl, rfl⟩)

end Queue

end WorkStealing
