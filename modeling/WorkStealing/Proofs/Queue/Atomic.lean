import WorkStealing.Proofs.Queue.Staged
import WorkStealing.Queue.Fifo

namespace WorkStealing

class Queue.Atomic (Q : Type) {α E D : Type} [Queue Q α E D] [Holding Q α] : Prop where
  push_moves (q : Q) (v : α) :
    (∃ r, Queue.push.moves q (pushing Q v) = [.done r (.ok ())] ∧
      Holding.items r = Holding.items q ++ [v]) ∨
    Queue.push.moves q (pushing Q v) = [.done q (.error v)]
  pop_moves (q : Q) :
    (Holding.items q = [] ∧ Queue.pop.moves q (popping Q) = [.done q none]) ∨
    ∃ v r, Holding.items q = v :: Holding.items r ∧
      Queue.pop.moves q (popping Q) = [.done r (some v)]

instance (α : Type) : Queue.Atomic (Fifo α) where
  push_moves q v := by
    simp only [Queue.push, Queue.pushing, Fifo.push]
    split
    · exact .inr rfl
    · exact .inl ⟨_, rfl, rfl⟩
  pop_moves q := by
    rcases q with ⟨_ | ⟨v, vs⟩, n⟩
    · exact .inl ⟨rfl, rfl⟩
    · exact .inr ⟨v, ⟨vs, n⟩, rfl, rfl⟩

variable {Q α E D : Type}

namespace Ghost

def of (vs : List α) : Ghost α := ⟨vs, 0, fun p => if p < vs.length then .published else .free⟩

theorem of_nil : (of [] : Ghost α) = start := rfl

def Still (g : Ghost α) : Prop := ∀ p, ¬ (g.stage p).Busy

variable {g : Ghost α} {m : Hold → Nat}

theorem Still.setStage {p : Nat} {s : Stage} (h : ∀ q, q ≠ p → ¬ (g.stage q).Busy)
    (hs : ¬ s.Busy) : (g.setStage p s).Still := by
  intro q
  by_cases e : q = p
  · subst e
    rwa [setStage_self]
  · rw [g.setStage_ne s e]
    exact h q e

theorem Still.stage_eq (h : g.Still) (ho : g.Orderly m) {p : Nat} (hf : g.front ≤ p)
    (hp : p < g.values.length) : g.stage p = .published := by
  have h0 := (ho.claimed_iff p).1 hp
  have h3 := ho.taken_iff p
  have hb := h p
  revert h0 h3 hb
  cases g.stage p <;> simp [Stage.rank, Stage.Busy]
  omega

theorem Still.clear (h : g.Still) (ho : g.Orderly m) : g.Clear := by
  refine ho.clear (fun p => ?_) fun p => ?_
  · rw [ho.held .claimed p (by decide), if_neg fun hs => h p (by rw [hs]; decide)]
  · rw [ho.held .written p (by decide), if_neg fun hs => h p (by rw [hs]; decide)]

theorem Still.ready_eq (h : g.Still) (ho : g.Orderly m) : g.ready = g.values.length - g.front := by
  have hone : ∀ i ∈ Finset.range (g.values.length - g.front),
      (g.stage (g.front + i)).waiting = 1 := by
    intro i hi
    rw [Finset.mem_range] at hi
    rw [h.stage_eq ho (by omega) (by omega)]
    rfl
  rw [ho.ready_eq_sum, Finset.sum_const_nat hone, Finset.card_range, Nat.mul_one]

end Ghost

namespace Queue.Atomic

variable [Queue Q α E D] [Holding Q α]

structure Tracks (b : Q) (g : Ghost α) (m : Hold → Nat) : Prop where
  orderly : g.Orderly m
  still : g.Still
  items : Holding.items b = g.values.drop g.front

theorem tracks_of (b : Q) : Tracks b (.of (Holding.items b)) 0 := by
  refine ⟨⟨fun p => ?_, fun p => ?_, ?_⟩, fun p => ?_, rfl⟩
  · simp only [Ghost.of]
    split <;> simp_all [Stage.rank]
  · simp only [Ghost.of]
    split <;> simp [Stage.rank]
  · intro s p hs
    have : Stage.published ≠ s := by rintro rfl; simp [Stage.Busy] at hs
    have : Stage.free ≠ s := by rintro rfl; simp [Stage.Busy] at hs
    simp only [Ghost.of]
    split <;> simp_all
  · simp only [Ghost.of]
    split <;> decide

variable {b : Q} {g : Ghost α} {m : Hold → Nat} {v : α}

theorem Tracks.ready_eq (h : Tracks b g m) : (Holding.items b).length = g.ready := by
  rw [h.items, List.length_drop, h.still.ready_eq h.orderly]

theorem Tracks.push (h : Tracks b g m) {c : Q} (hc : Holding.items c = Holding.items b ++ [v]) :
    Tracks c ((g.claim v).setStage g.values.length .published) m := by
  have hst : (g.claim v).stage g.values.length = .claimed := by simp [Ghost.claim]
  have hm : (holding .published g.values.length : Hold → Nat) + m = m := by
    simp [holding, Stage.Busy]
  have ho := h.orderly.claim v
  rw [← hst] at ho
  refine ⟨hm ▸ ho.setStage .published ?_ (by decide) ?_, .setStage ?_ (by decide), ?_⟩
  · rw [hst]
    decide
  · rw [hst]
    decide
  · intro q hq
    simpa [Ghost.claim, g.setStage_ne _ hq] using h.still q
  · rw [hc, h.items]
    exact (List.drop_append_of_le_length h.orderly.front_le).symm

theorem Tracks.pop (h : Tracks b g m) {c : Q} (hc : Holding.items b = v :: Holding.items c) :
    g.values[g.front]? = some v ∧ g.stage g.front = .published ∧
      Tracks c (g.take.setStage g.front .released) m := by
  rw [h.items] at hc
  have hv : g.values[g.front]? = some v := by
    have := congrArg List.head? hc
    rwa [List.head?_drop] at this
  have hlt := (List.getElem?_eq_some_iff.1 hv).1
  have hs := h.still.stage_eq h.orderly le_rfl hlt
  have hst : g.take.stage g.front = .taken := by simp [Ghost.take]
  have hm : (holding .released g.front : Hold → Nat) + m = m := by simp [holding, Stage.Busy]
  have ho := h.orderly.take hs
  rw [← hst] at ho
  refine ⟨hv, hs, hm ▸ ho.setStage .released ?_ (by decide) ?_, .setStage ?_ (by decide), ?_⟩
  · rw [hst]
    decide
  · rw [hst]
    decide
  · intro q hq
    simpa [Ghost.take, g.setStage_ne _ hq] using h.still q
  · have := congrArg List.tail hc
    rw [List.tail_drop] at this
    exact this.symm

variable [Queue.Atomic Q]

theorem push_step {a : Move Q E (Except α Unit)} (h : Tracks b g m)
    (ha : a ∈ Queue.push.moves b (pushing Q v)) :
    ∃ g', PushStep (fun _ : E => false) g v (pushing Q v) a g' ∧ g.Le g' ∧ Tracks a.state g' m ∧
      ∀ t e, a ≠ .go t e := by
  rcases push_moves (α := α) (E := E) (D := D) b v with ⟨c, hm, hc⟩ | hm <;> rw [hm] at ha <;>
    obtain rfl := List.mem_singleton.1 ha
  · have hback := h.orderly.stage_back
    have hlt : g.values.length < (g.claim v).values.length := by simp [Ghost.claim]
    have hst : (g.claim v).stage g.values.length = .claimed := by simp [Ghost.claim]
    have hv : (g.claim v).values[g.values.length]? = some v := by simp [Ghost.claim]
    refine ⟨_, .ok ?_ ?_ fun f => ?_, ?_, h.push hc, by simp⟩
    · simp [Ghost.claim]
    · have := (g.claim v).ready_setStage .published hlt
      rw [hst, g.ready_claim] at this
      exact this
    · have := (g.claim v).stock_setStage f .published hlt
      rw [hst, hv, g.stock_claim] at this
      cases hf : f v <;> simpa [hf, Stage.stocked, Stage.InStock, Stage.rank] using this
    · exact (g.le_claim v hback).trans (Ghost.le_setStage _ _ _ (by rw [hst]; decide))
  · exact ⟨g, .error rfl, .refl g, h, by simp⟩

theorem pop_step {a : Move Q D (Option α)} (h : Tracks b g m)
    (ha : a ∈ Queue.pop.moves b (popping Q)) :
    ∃ g', PopStep (fun _ : D => false) g (popping Q) a g' ∧ g.Le g' ∧ Tracks a.state g' m ∧
      ∀ t d, a ≠ .go t d := by
  rcases pop_moves (α := α) (E := E) (D := D) b with ⟨hn, hm⟩ | ⟨v, c, hc, hm⟩ <;> rw [hm] at ha <;>
    obtain rfl := List.mem_singleton.1 ha
  · refine ⟨g, .none rfl fun _ => ?_, .refl g, h, by simp⟩
    rw [← h.ready_eq, hn]
    rfl
  · obtain ⟨hv, hs, ht⟩ := h.pop hc
    have hlt : g.front < g.values.length := (List.getElem?_eq_some_iff.1 hv).1
    have hst : g.take.stage g.front = .taken := by simp [Ghost.take]
    refine ⟨g.take.setStage g.front .released, .some rfl ?_ (fun f => ?_) fun hclear => ?_, ?_, ht,
      by simp⟩
    · have h1 := g.ready_setStage .taken hlt
      have h2 := g.take.ready_setStage .released hlt
      rw [hs] at h1
      rw [hst] at h2
      change _ + 0 = g.take.ready + 0 at h2
      change g.take.ready + 1 = g.ready + 0 at h1
      change _ + 1 = g.ready + 0
      omega
    · have h1 := g.stock_setStage f .taken hlt
      have h2 := g.take.stock_setStage f .released hlt
      rw [hs] at h1
      rw [hst] at h2
      change g.take.stock f + _ = _ at h1
      change _ + _ = g.take.stock f + _ at h2
      have hv' : g.take.values[g.front]? = some v := hv
      rw [hv] at h1
      rw [hv'] at h2
      cases hf : f v <;> simp [hf, Stage.stocked, Stage.InStock, Stage.rank] at h1 h2 ⊢ <;> omega
    · exact (hclear.take hs).setStage (by decide) (by rw [hst]; decide)
    · exact (g.le_take hs).trans (Ghost.le_setStage _ _ _ (by rw [hst]; decide))

instance : Queue.Staged Q α E D where
  Tracks _ b g m := Tracks b g m
  Pushing _ _ v e := e = pushing Q v
  Popping _ d := d = popping Q
  pushHold _ := 0
  popHold _ := 0
  claims _ := false
  takes _ := false
  Wraps := False
  ready b := (Holding.items b).length
  hand _ _ := none
  lag _ _ := 1
  orderly := Tracks.orderly
  ready_eq := Tracks.ready_eq
  pushHold_eq _ _ := ⟨rfl, rfl⟩
  popHold_eq _ _ := ⟨rfl, rfl⟩
  hand_eq {n b g m d} f _ _ := g.carried_eq_zero f (fun _ => rfl) fun _ => rfl
  lag_enter _ := one_le_pace
  lag_pos _ _ _ := Nat.one_pos
  lag_step {n b t g m d e} ht hk _ _ _ ha := by
    subst hk
    rw [zero_add] at ht
    obtain ⟨-, -, -, -, hgo⟩ := pop_step ht ha
    exact absurd rfl (hgo t e)
  push_enter _ _ _ := ⟨rfl, rfl, rfl⟩
  pop_enter _ := ⟨rfl, rfl, rfl⟩
  push_mono _ hk := hk
  pop_mono _ hk := hk
  push_step {n b g m v e a} ht hk ha _ := by
    subst hk
    rw [zero_add] at ht
    obtain ⟨g', hs, hle, ht', hgo⟩ := push_step ht ha
    refine ⟨g', hs, hle, ?_, fun t e he => absurd he (hgo t e)⟩
    cases a <;> rwa [Move.share, zero_add]
  pop_step {n b g m d a} ht hk ha := by
    subst hk
    rw [zero_add] at ht
    obtain ⟨g', hs, hle, ht', hgo⟩ := pop_step ht ha
    refine ⟨g', hs, hle, ?_, fun t d he => absurd he (hgo t d)⟩
    cases a <;> rwa [Move.share, zero_add]
  push_moves_ne_nil {n b g m v e} _ hk := by
    subst hk
    rcases push_moves (α := α) (E := E) (D := D) b v with ⟨c, hm, -⟩ | hm <;> simp [hm]
  pop_moves_ne_nil {n b g m d} _ hk := by
    subst hk
    rcases pop_moves (α := α) (E := E) (D := D) b with ⟨-, hm⟩ | ⟨v, c, -, hm⟩ <;> simp [hm]

end Queue.Atomic

end WorkStealing
