import WorkStealing.Proofs.Crew.Run
import WorkStealing.Proofs.Queue.Ghost
import WorkStealing.Queue.Basic

namespace WorkStealing

def Move.tally {S P R M : Type} (f : P → M) (g : R → M) : Move S P R → M
  | .go _ p => f p
  | .done _ r => g r

theorem Move.embed_eq_go {S P R A : Type} {a : Move S P R} {f : R → A} {s : S} {p : P} :
    a.embed id id (fun s r => .done s (f r)) = .go s p ↔ a = .go s p := by
  cases a <;> simp [embed]

namespace Queue

inductive PushStep {Q α E : Type} (claims : E → Bool) (g : Ghost α) (v : α) (e : E) :
    Move Q E (Except α Unit) → Ghost α → Prop where
  | go {b : Q} {e' : E} {h : Ghost α}
      (size : h.values.length + (claims e).toNat = g.values.length + (claims e').toNat)
      (ready : h.ready = g.ready) (stock : ∀ f, h.stock f = g.stock f)
      (clear : g.Clear → h.Clear) : PushStep claims g v e (.go b e') h
  | ok {b : Q} {h : Ghost α}
      (size : h.values.length + (claims e).toNat = g.values.length + 1)
      (ready : h.ready = g.ready + 1) (stock : ∀ f, h.stock f = g.stock f + (f v).toNat) :
      PushStep claims g v e (.done b (.ok ())) h
  | error {b : Q} (size : claims e = false) : PushStep claims g v e (.done b (.error v)) g

inductive PopStep {Q α D : Type} (takes : D → Bool) (g : Ghost α) (d : D) :
    Move Q D (Option α) → Ghost α → Prop where
  | go {b : Q} {d' : D} {h : Ghost α} (size : h.values.length = g.values.length)
      (ready : h.ready + (takes d').toNat = g.ready + (takes d).toNat)
      (stays : takes d → takes d') (stock : ∀ f, h.stock f = g.stock f)
      (clear : g.Clear → h.Clear) : PopStep takes g d (.go b d') h
  | none {b : Q} (free : takes d = false) (blind : g.Clear → g.ready = 0) :
      PopStep takes g d (.done b none) g
  | some {b : Q} {v : α} {h : Ghost α} (size : h.values.length = g.values.length)
      (ready : h.ready + 1 = g.ready + (takes d).toNat)
      (stock : ∀ f, h.stock f + (f v).toNat = g.stock f) (clear : g.Clear → h.Clear) :
      PopStep takes g d (.done b (some v)) h

/-- `n` is the number of places. `claims` and `takes` tell whether a call has claimed a position
of its own, and `Wraps` whether positions are only told apart as long as there are few of them.
`hand` is the value a pop has taken and not yet come back with, and `lag` how many steps a pop has
left to find that everything up to a position has been taken. -/
class Staged (Q : Type) (α E D : outParam Type) [Queue Q α E D] where
  Tracks : Nat → Q → Ghost α → (Hold → Nat) → Prop
  Pushing : Nat → Ghost α → α → E → Prop
  Popping : Ghost α → D → Prop
  pushHold : E → Hold → Nat
  popHold : D → Hold → Nat
  claims : E → Bool
  takes : D → Bool
  Wraps : Prop
  ready : Q → Nat
  hand : Q → D → Option α
  lag : Nat → D → Nat
  orderly {n : Nat} {b : Q} {g : Ghost α} {m : Hold → Nat} : Tracks n b g m → g.Orderly m
  ready_eq {n : Nat} {b : Q} {g : Ghost α} {m : Hold → Nat} : Tracks n b g m → ready b = g.ready
  pushHold_eq (e : E) (p : Nat) : pushHold e (.taken, p) = 0 ∧ pushHold e (.read, p) = 0
  popHold_eq (d : D) (p : Nat) : popHold d (.claimed, p) = 0 ∧ popHold d (.written, p) = 0
  hand_eq {n : Nat} {b : Q} {g : Ghost α} {m : Hold → Nat} {d : D} (f : α → Bool) :
    Tracks n b g (popHold d + m) → Popping g d →
      g.carried f (popHold d) = (hand b d).toList.countP f
  lag_enter (p : Nat) : lag p (popping Q) ≤ pace
  lag_pos (p : Nat) {d : D} : takes d = false → 0 < lag p d
  lag_step {n : Nat} {b t : Q} {g : Ghost α} {m : Hold → Nat} {d e : D} :
    Tracks n b g (popHold d + m) → Popping g d → g.front = g.values.length → takes d = false →
      takes e = false → .go t e ∈ pop.moves b d → lag g.front e < lag g.front d
  push_enter (n : Nat) (g : Ghost α) (v : α) : Pushing n g v (pushing Q v) ∧
    pushHold (pushing Q v) = 0 ∧ claims (pushing Q v) = false
  pop_enter (g : Ghost α) : Popping g (popping Q) ∧ popHold (popping Q) = 0 ∧
    takes (popping Q) = false
  push_mono {n : Nat} {g h : Ghost α} {v : α} {e : E} : g.Le h → Pushing n g v e → Pushing n h v e
  pop_mono {g h : Ghost α} {d : D} : g.Le h → Popping g d → Popping h d
  push_step {n : Nat} {b : Q} {g : Ghost α} {m : Hold → Nat} {v : α} {e : E}
    {a : Move Q E (Except α Unit)} : Tracks n b g (pushHold e + m) → Pushing n g v e →
    a ∈ push.moves b e → (Wraps → claims e = false → g.values.length + 1 < 2 ^ 63) →
    ∃ h, PushStep claims g v e a h ∧ g.Le h ∧ Tracks n a.state h (a.share pushHold + m) ∧
      ∀ t e', a = .go t e' → Pushing n h v e'
  pop_step {n : Nat} {b : Q} {g : Ghost α} {m : Hold → Nat} {d : D} {a : Move Q D (Option α)} :
    Tracks n b g (popHold d + m) → Popping g d → a ∈ pop.moves b d →
    ∃ h, PopStep takes g d a h ∧ g.Le h ∧ Tracks n a.state h (a.share popHold + m) ∧
      ∀ t d', a = .go t d' → Popping h d'
  push_moves_ne_nil {n : Nat} {b : Q} {g : Ghost α} {m : Hold → Nat} {v : α} {e : E} :
    Tracks n b g (pushHold e + m) → Pushing n g v e → push.moves b e ≠ []
  pop_moves_ne_nil {n : Nat} {b : Q} {g : Ghost α} {m : Hold → Nat} {d : D} :
    Tracks n b g (popHold d + m) → Popping g d → pop.moves b d ≠ []

theorem one_le_pace : 1 ≤ pace := by decide

inductive DryStep {Q α D : Type} (takes : D → Bool) (lag : D → Nat) (d : D) :
    Move Q D (Option α) → Prop where
  | go {b : Q} {e : D} (free : takes e = false) (less : lag e < lag d) : DryStep takes lag d (.go b e)
  | none {b : Q} (pos : 0 < lag d) : DryStep takes lag d (.done b none)

theorem Staged.dry_step {Q α E D : Type} [Queue Q α E D] [Staged Q α E D] {n : Nat} {b : Q}
    {g : Ghost α} {m : Hold → Nat} {d : D} {a : Move Q D (Option α)}
    (ht : Tracks n b g (popHold Q d + m)) (hk : Popping Q g d) (hf : g.front = g.values.length)
    (hd : takes Q d = false) (ha : a ∈ pop.moves b d) :
    DryStep (takes Q) (lag Q g.front) d a := by
  have hr := (orderly ht).ready_eq_zero_of_front hf
  obtain ⟨h, hs, -, -, -⟩ := pop_step ht hk ha
  cases hs with
  | go size ready stays stock clear =>
    rw [hr, hd] at ready
    have he := Bool.toNat_eq_zero.1 (Nat.eq_zero_of_add_eq_zero_left ready)
    exact .go he (lag_step ht hk hf hd he ha)
  | none free blind => exact .none (lag_pos g.front hd)
  | some size ready stock clear =>
    rw [hr, hd] at ready
    exact absurd ready (Nat.succ_ne_zero _)

inductive Part where
  | hold (x : Hold)
  | claim
  | given
  | got

section

variable (Q : Type) {α E D : Type} [Queue Q α E D] [Staged Q α E D]

def pushPart (e : E) : Part → Nat
  | .hold x => Staged.pushHold Q e x
  | .claim => (Staged.claims Q e).toNat
  | .given => 0
  | .got => 0

def popPart (d : D) : Part → Nat
  | .hold x => Staged.popHold Q d x
  | .claim => 0
  | .given => 0
  | .got => 0

end

def givenPart {α : Type} (f : α → Bool) (v : α) : Part → Nat
  | .hold _ => 0
  | .claim => 1
  | .given => (f v).toNat
  | .got => 0

def gotPart {α : Type} (f : α → Bool) (v : α) : Part → Nat
  | .hold _ => 0
  | .claim => 0
  | .given => 0
  | .got => (f v).toNat

def pushedPart {α : Type} (f : α → Bool) (v : α) : Except α Unit → Part → Nat
  | .ok _ => givenPart f v
  | .error _ => 0

def poppedPart {α : Type} (f : α → Bool) : Option α → Part → Nat
  | some v => gotPart f v
  | none => 0

variable {Q α E D : Type} [Queue Q α E D] [Staged Q α E D]

theorem pushPart_enter (n : Nat) (g : Ghost α) (v : α) : pushPart Q (pushing Q v) = 0 := by
  obtain ⟨-, hhold, hclaim⟩ := Staged.push_enter (Q := Q) n g v
  funext x
  cases x <;> simp [pushPart, hhold, hclaim]

theorem popPart_enter (g : Ghost α) : popPart Q (popping Q) = 0 := by
  obtain ⟨-, hhold, -⟩ := Staged.pop_enter (Q := Q) g
  funext x
  cases x <;> simp [popPart, hhold]

/-- The queue is as the ghost tells, and whatever of a kind was published since `g₀` has been handed
out or is in stock. -/
structure Stored (n : Nat) (f : α → Bool) (g₀ : Ghost α) (b : Q) (g : Ghost α) (m : Part → Nat) :
    Prop where
  tracks : Staged.Tracks n b g fun x => m (.hold x)
  size : g.values.length = g₀.values.length + m .claim
  ledger : g₀.stock f + m .given = m .got + g.stock f

variable {n : Nat} {f : α → Bool} {g₀ g : Ghost α} {b : Q} {m : Part → Nat}

theorem Stored.push {v : α} {e : E} {a : Move Q E (Except α Unit)}
    (hs : Stored n f g₀ b g (pushPart Q e + m)) (hk : Staged.Pushing Q n g v e)
    (ha : a ∈ push.moves b e) (hb : Staged.Wraps Q → g₀.values.length + m .claim + 1 < 2 ^ 63) :
    ∃ h, PushStep (Staged.claims Q) g v e a h ∧ g.Le h ∧ Stored n f g₀ a.state h
        (a.tally (pushPart Q) (pushedPart f v) + m) ∧
      ∀ t e', a = .go t e' → Staged.Pushing Q n h v e' := by
  obtain ⟨ht, hsize, hledger⟩ := hs
  simp only [Pi.add_apply, pushPart] at hsize hledger
  have hbound : Staged.Wraps Q → Staged.claims Q e = false →
      g.values.length + 1 < 2 ^ 63 := by
    intro hw hc
    have := hb hw
    rw [hc] at hsize
    simp at hsize
    omega
  obtain ⟨h, hstep, hle, ht', hk'⟩ := Staged.push_step ht hk ha hbound
  refine ⟨h, hstep, hle, ?_, hk'⟩
  cases hstep with
  | go size ready stock clear =>
    refine ⟨ht', ?_, ?_⟩
    · simp only [Move.tally, Pi.add_apply, pushPart]
      omega
    · have := stock f
      simp only [Move.tally, Pi.add_apply, pushPart]
      omega
  | ok size ready stock =>
    refine ⟨?_, ?_, ?_⟩
    · simpa [Move.share, Move.tally, pushedPart, givenPart] using ht'
    · simp only [Move.tally, Pi.add_apply, pushedPart, givenPart]
      omega
    · have := stock f
      simp only [Move.tally, Pi.add_apply, pushedPart, givenPart]
      omega
  | error size =>
    refine ⟨?_, ?_, ?_⟩
    · simpa [Move.share, Move.tally, pushedPart] using ht'
    · rw [size] at hsize
      simpa [Move.tally, pushedPart] using hsize
    · simpa [Move.tally, pushedPart] using hledger

theorem Stored.pop {d : D} {a : Move Q D (Option α)} (hs : Stored n f g₀ b g (popPart Q d + m))
    (hk : Staged.Popping Q g d) (ha : a ∈ pop.moves b d) :
    ∃ h, PopStep (Staged.takes Q) g d a h ∧ g.Le h ∧ Stored n f g₀ a.state h
        (a.tally (popPart Q) (poppedPart f) + m) ∧
      ∀ t d', a = .go t d' → Staged.Popping Q h d' := by
  obtain ⟨ht, hsize, hledger⟩ := hs
  simp only [Pi.add_apply, popPart] at hsize hledger
  obtain ⟨h, hstep, hle, ht', hk'⟩ := Staged.pop_step ht hk ha
  refine ⟨h, hstep, hle, ?_, hk'⟩
  cases hstep with
  | go size ready stays stock clear =>
    refine ⟨ht', ?_, ?_⟩
    · simp only [Move.tally, Pi.add_apply, popPart]
      omega
    · have := stock f
      simp only [Move.tally, Pi.add_apply, popPart]
      omega
  | none free blind =>
    refine ⟨?_, ?_, ?_⟩
    · simpa [Move.share, Move.tally, poppedPart] using ht'
    · simpa [Move.tally, poppedPart] using hsize
    · simpa [Move.tally, poppedPart] using hledger
  | some size ready stock clear =>
    refine ⟨?_, ?_, ?_⟩
    · simpa [Move.share, Move.tally, poppedPart, gotPart] using ht'
    · simp only [Move.tally, poppedPart, Pi.add_apply, gotPart]
      omega
    · rename_i v _
      have := stock f
      simp only [Move.tally, poppedPart, Pi.add_apply, gotPart]
      omega

end Queue

end WorkStealing
