import WorkStealing.Linked.Basic
import WorkStealing.Proofs.Queue.Staged
import Mathlib.Algebra.BigOperators.Ring.Finset
import Mathlib.Data.Nat.Count

namespace WorkStealing

variable {α : Type}

namespace Ghost

def cell (g : Ghost α) : Nat → Option α
  | 0 => none
  | p + 1 => if 3 < (g.stage p).rank then none else g.values[p]?

def node (g : Ghost α) (p : Nat) : Linked.Node α where
  value := g.cell p
  next := if 3 ≤ (g.stage p).rank then some (p + 1) else none
  freed := g.stage p = .released

theorem cell_setStage (g : Ghost α) {p : Nat} {s : Stage}
    (h : 3 < (g.stage p).rank ↔ 3 < s.rank) (q : Nat) : (g.setStage p s).cell q = g.cell q := by
  cases q with
  | zero => rfl
  | succ q =>
    simp only [cell, setStage_values]
    by_cases e : q = p
    · subst e
      simp only [setStage_self, h]
    · rw [g.setStage_ne s e]

theorem node_setStage_ne (g : Ghost α) {p q : Nat} {s : Stage}
    (h : 3 < (g.stage p).rank ↔ 3 < s.rank) (hq : q ≠ p) : (g.setStage p s).node q = g.node q := by
  simp only [node, g.cell_setStage h, g.setStage_ne s hq]

theorem node_claim (g : Ghost α) (v : α) {p : Nat} (hp : p ≤ g.values.length)
    (hf : g.stage g.values.length = .free) : (g.claim v).node p = g.node p := by
  have hcell : (g.claim v).cell p = g.cell p := by
    cases p with
    | zero => rfl
    | succ p =>
      have hne : p ≠ g.values.length := by omega
      simp [cell, claim, setStage, hne, List.getElem?_append_left hp]
  simp only [node, hcell]
  by_cases e : p = g.values.length
  · subst e
    simp [claim, hf, Stage.rank]
  · simp [claim, setStage, e]

theorem node_claim_back (g : Ghost α) (v : α) (hf : g.stage (g.values.length + 1) = .free) :
    (g.claim v).node (g.values.length + 1) = { value := some v } := by
  simp [node, cell, claim, setStage, hf, Stage.rank]

theorem node_take_ne (g : Ghost α) {p : Nat} (hs : g.stage g.front = .published)
    (hp : p ≠ g.front + 1) : g.take.node p = g.node p := by
  have hcell : g.take.cell p = g.cell p := by
    cases p with
    | zero => rfl
    | succ p =>
      have hne : p ≠ g.front := by omega
      simp [cell, take, setStage, hne]
  simp only [node, hcell]
  by_cases e : p = g.front
  · subst e
    simp [take, hs, Stage.rank]
  · simp [take, setStage, e]

theorem node_take (g : Ghost α) : g.take.node (g.front + 1) =
    { g.node (g.front + 1) with value := none } := by
  have hcell : g.take.cell (g.front + 1) = none := by simp [cell, take, setStage, Stage.rank]
  simp only [node, hcell]
  simp [take, setStage]

end Ghost

namespace Linked

def Push.share : Push α → Hold → Nat
  | .swap _ => 0
  | .link previous _ => holding .claimed previous

def Pop.share : Pop α → Hold → Nat
  | .advance => 0
  | .discard stub _ _ => holding .taken stub

def Push.Knows (g : Ghost α) (v : α) : Push α → Prop
  | .swap w => w = v
  | .link previous node => node = previous + 1 ∧ g.values[previous]? = some v

def Pop.Knows (g : Ghost α) : Pop α → Prop
  | .advance => True
  | .discard stub _ v => ∃ w, v = some w ∧ g.values[stub]? = some w

def Push.claims : Push α → Bool
  | .swap _ => false
  | .link _ _ => true

def Pop.takes : Pop α → Bool
  | .advance => false
  | .discard _ _ _ => true

def ready (q : Linked α) : Nat :=
  Nat.count (fun a => (q.nodes[a]?.bind Node.next).any fun b => (q.nodes[b]?.bind Node.value).isSome)
    q.nodes.size

structure Tracks (q : Linked α) (g : Ghost α) (m : Hold → Nat) : Prop where
  orderly : g.Orderly m
  size : q.nodes.size = g.values.length + 1
  head : q.head = g.values.length
  stub : q.stub = g.front
  node : ∀ p ≤ g.values.length, q.nodes[p]? = some (g.node p)

variable {q : Linked α} {g h : Ghost α} {m : Hold → Nat} {v : α} {p : Nat}

theorem getElem?_modify (q : Linked α) (a b : Nat) (f : Node α → Node α) :
    (q.modify a f).nodes[b]? = if a = b then q.nodes[b]?.map f else q.nodes[b]? :=
  Array.getElem?_modify

theorem tracks_start : Tracks (α := α) {} .start 0 := by
  refine ⟨⟨?_, ?_, ?_⟩, rfl, rfl, rfl, ?_⟩
  · simp [Ghost.start, Stage.rank]
  · simp [Ghost.start, Stage.rank]
  · intro s p hs
    have : Stage.free ≠ s := by rintro rfl; simp [Stage.Busy] at hs
    simp [Ghost.start, this]
  · intro p hp
    obtain rfl : p = 0 := by simpa [Ghost.start] using hp
    rfl

namespace Tracks

theorem live (ht : Tracks q g m) (hp : p ≤ g.values.length) (hr : g.stage p ≠ .released) :
    q.live? p = some (g.node p) := by
  simp [live?, ht.node p hp, Ghost.node, hr]

theorem claim (ht : Tracks q g m) (v : α) :
    Tracks { q with nodes := q.nodes.push { value := some v }, head := q.nodes.size } (g.claim v)
      (holding .claimed g.values.length + m) := by
  have hback := ht.orderly.stage_back
  have hlen : (g.claim v).values.length = g.values.length + 1 := by simp [Ghost.claim]
  refine ⟨ht.orderly.claim v, ?_, ?_, ht.stub, ?_⟩
  · simp [hlen, ht.size]
  · simp [hlen, ht.size]
  · intro p hp
    rw [hlen] at hp
    rcases Nat.eq_or_lt_of_le hp with rfl | hlt
    · have hfree : g.stage (g.values.length + 1) = .free := by
        apply Stage.rank_inj
        have := ht.orderly.claimed_iff (g.values.length + 1)
        change (g.stage (g.values.length + 1)).rank = 0
        omega
      rw [g.node_claim_back v hfree, ← ht.size, Array.getElem?_push_size]
    · have hne : p ≠ q.nodes.size := by
        rw [ht.size]
        omega
      rw [Array.getElem?_push, if_neg hne, ht.node p (by omega), g.node_claim v (by omega) hback]

theorem restage (ht : Tracks q g (holding (g.stage p) p + m)) {s : Stage}
    {f : Node α → Node α} (h0 : 0 < (g.stage p).rank) (hs : 0 < s.rank)
    (h3 : 3 < (g.stage p).rank ↔ 3 < s.rank) (hf : f (g.node p) = (g.setStage p s).node p) :
    Tracks (q.modify p f) (g.setStage p s) (holding s p + m) := by
  refine ⟨ht.orderly.setStage s h0 hs h3, ?_, ht.head, ht.stub, fun a ha => ?_⟩
  · simpa [modify] using ht.size
  · rw [getElem?_modify, ht.node a ha]
    split
    · subst p
      simp [hf]
    · rw [g.node_setStage_ne h3 (Ne.symm ‹_›)]

theorem link (ht : Tracks q g (holding .claimed p + m)) :
    Tracks (q.setNext p (p + 1)) (g.setStage p .published) m := by
  have hst : g.stage p = .claimed := ht.orderly.held.stage_eq (by decide)
  have hm : (holding .published p : Hold → Nat) + m = m := by simp [holding, Stage.Busy]
  rw [← hst] at ht
  rw [← hm]
  refine ht.restage (by rw [hst]; decide) (by decide) (by rw [hst]; decide) ?_
  simp [Ghost.node, g.cell_setStage (p := p) (s := .published) (by rw [hst]; decide), hst, Stage.rank]

theorem take (ht : Tracks q g m) (hs : g.stage g.front = .published) :
    Tracks { q.takeValue (g.front + 1) with stub := g.front + 1 } g.take
      (holding .taken g.front + m) := by
  refine ⟨ht.orderly.take hs, ?_, ht.head, rfl, fun a ha => ?_⟩
  · simpa [takeValue, modify, Ghost.take] using ht.size
  · change (q.modify (g.front + 1) _).nodes[a]? = _
    rw [getElem?_modify, ht.node a ha]
    split
    · subst a
      rw [g.node_take]
      rfl
    · rw [g.node_take_ne hs (Ne.symm ‹_›)]

theorem release (ht : Tracks q g (holding .taken p + m)) :
    Tracks (q.free p) (g.setStage p .released) m := by
  have hst : g.stage p = .taken := ht.orderly.held.stage_eq (by decide)
  have hm : (holding .released p : Hold → Nat) + m = m := by simp [holding, Stage.Busy]
  have hcell : g.cell p = none := by
    cases p with
    | zero => rfl
    | succ p =>
      have h1 := (ht.orderly.taken_iff (p + 1)).2 (by rw [hst]; decide)
      exact if_pos ((ht.orderly.taken_iff p).1 (by omega))
  rw [← hst] at ht
  rw [← hm]
  refine ht.restage (by rw [hst]; decide) (by decide) (by rw [hst]; decide) ?_
  simp [Ghost.node, g.cell_setStage (p := p) (s := .released) (by rw [hst]; decide), hcell, hst,
    Stage.rank]

theorem lt_of_stage (ht : Tracks q g m) (hp : g.stage p ≠ .free) : p < g.values.length :=
  (ht.orderly.claimed_iff p).2 (Stage.rank_pos hp)

theorem live_stub (ht : Tracks q g m) : q.live? q.stub = some (g.node g.front) := by
  rw [ht.stub]
  refine ht.live ht.orderly.front_le fun hr => ?_
  have := (ht.orderly.taken_iff g.front).2 (by rw [hr]; decide)
  omega

theorem ready_eq (ht : Tracks q g m) : q.ready = g.ready := by
  have hsum : ∀ a ∈ Finset.range g.values.length,
      (if (q.nodes[a]?.bind Node.next).any fun b => (q.nodes[b]?.bind Node.value).isSome then 1
        else 0) = (g.stage a).waiting := by
    intro a ha
    have ha := Finset.mem_range.1 ha
    rw [ht.node a ha.le]
    simp only [Option.bind_some, Ghost.node, Stage.waiting]
    by_cases h3 : 3 ≤ (g.stage a).rank
    · have hnext : q.nodes[a + 1]?.bind Node.value = g.cell (a + 1) := by
        rw [ht.node (a + 1) ha]
        rfl
      simp only [if_pos h3, Option.any_some, hnext, Ghost.cell]
      revert h3
      cases g.stage a <;> simp [Stage.rank, ha]
    · simp only [if_neg h3, Option.any_none]
      revert h3
      cases g.stage a <;> simp [Stage.rank]
  have hback : (q.nodes[g.values.length]?.bind Node.next) = none := by
    rw [ht.node _ le_rfl]
    simp [Ghost.node, ht.orderly.stage_back, Stage.rank]
  rw [ready, ht.size, Nat.count_eq_card_filter_range, Finset.card_filter, Finset.sum_range_succ,
    Finset.sum_congr rfl hsum, hback]
  rfl

theorem moves_link (ht : Tracks q g (holding .claimed p + m)) (node : Nat) :
    (Push.link p node : Push α).moves q = [.done (q.setNext p node) (.ok node)] := by
  have hst : g.stage p = .claimed := ht.orderly.held.stage_eq (by decide)
  have hlt := ht.lt_of_stage (p := p) (by rw [hst]; decide)
  simp [Push.moves, ht.live hlt.le (by rw [hst]; decide)]

theorem front_cases (ht : Tracks q g m) :
    g.stage g.front = .published ∨ (g.stage g.front).rank < 3 := by
  have htaken := mt (ht.orderly.taken_iff g.front).2 (Nat.lt_irrefl _)
  revert htaken
  cases g.stage g.front <;> simp [Stage.rank]

theorem live_next (ht : Tracks q g m) (hs : g.stage g.front = .published) :
    q.live? (g.front + 1) = some (g.node (g.front + 1)) := by
  have hlt := ht.lt_of_stage (p := g.front) (by rw [hs]; decide)
  refine ht.live hlt fun hr => ?_
  have := (ht.orderly.taken_iff (g.front + 1)).2 (by rw [hr]; decide)
  omega

theorem moves_advance (ht : Tracks q g m) (hs : g.stage g.front = .published) :
    Pop.advance.moves q = [.go { q.takeValue (g.front + 1) with stub := g.front + 1 }
      (.discard g.front (g.front + 1) g.values[g.front]?)] := by
  have hnode : (g.node g.front).next = some (g.front + 1) := if_pos (by rw [hs]; decide)
  have hvalue : (g.node (g.front + 1)).value = g.values[g.front]? := if_neg (by rw [hs]; decide)
  simp only [Pop.moves, ht.live_stub, hnode, ht.live_next hs, hvalue]
  rw [ht.stub]

theorem moves_advance_none (ht : Tracks q g m) (h3 : (g.stage g.front).rank < 3) :
    Pop.advance.moves q = [.done q none] := by
  have hnode : (g.node g.front).next = none := if_neg (Nat.not_le.2 h3)
  simp only [Pop.moves, ht.live_stub, hnode]

theorem moves_discard (ht : Tracks q g (holding .taken p + m)) (node : Nat) (x : Option α) :
    (Pop.discard p node x).moves q = [.done (q.free p) (x.map fun v => (node, v))] := by
  have hst : g.stage p = .taken := ht.orderly.held.stage_eq (by decide)
  have hlt := ht.lt_of_stage (p := p) (by rw [hst]; decide)
  simp [Pop.moves, ht.live hlt.le (by rw [hst]; decide)]

end Tracks

theorem Push.step {e : Push α} {a : Move (Linked α) (Push α) (Except α Nat)}
    (ht : Tracks q g (e.share + m)) (hk : e.Knows g v) (ha : a ∈ e.moves q) :
    ∃ h, Queue.PushStep claims g v e (a.embed id id fun q r => .done q (r.map fun _ => ())) h ∧
      g.Le h ∧ Tracks a.state h (a.share Push.share + m) ∧ ∀ t e', a = .go t e' → e'.Knows h v := by
  cases e with
  | swap w =>
    obtain rfl : w = v := hk
    obtain rfl := List.mem_singleton.1 ha
    have hback := ht.orderly.stage_back
    refine ⟨g.claim w, .go ?_ (g.ready_claim w) (fun f => g.stock_claim f w)
      (fun hc => hc.claim w hback), g.le_claim w hback, ?_, ?_⟩
    · simp [Ghost.claim, claims]
    · have hm : (Push.swap w).share + m = m := zero_add m
      rw [hm] at ht
      have := ht.claim w
      rwa [← ht.head] at this
    · rintro t e' ⟨⟩
      exact ⟨by rw [ht.head, ht.size], by simp [Ghost.claim, ht.head]⟩
  | link previous node =>
    obtain ⟨rfl, hv⟩ := hk
    have hst : g.stage previous = .claimed := ht.orderly.held.stage_eq (by decide)
    have hlt := ht.lt_of_stage (p := previous) (by rw [hst]; decide)
    rw [ht.moves_link] at ha
    obtain rfl := List.mem_singleton.1 ha
    refine ⟨g.setStage previous .published, .ok ?_ ?_ fun f => ?_, g.le_setStage _ _ ?_, ?_, ?_⟩
    · rfl
    · have := g.ready_setStage .published hlt
      simpa [hst, Stage.waiting] using this
    · have := g.stock_setStage f .published hlt
      cases hf : f v <;> simpa [hst, hv, hf, Stage.stocked, Stage.InStock, Stage.rank] using this
    · rw [hst]
      decide
    · simpa [Move.share, Move.state] using ht.link
    · rintro t e' ⟨⟩

theorem Pop.step {d : Pop α} {a : Move (Linked α) (Pop α) (Option (Nat × α))}
    (ht : Tracks q g (d.share + m)) (hk : d.Knows g) (ha : a ∈ d.moves q) :
    ∃ h, Queue.PopStep takes g d (a.embed id id fun q r => .done q (r.map Prod.snd)) h ∧
      g.Le h ∧ Tracks a.state h (a.share Pop.share + m) ∧ ∀ t d', a = .go t d' → d'.Knows h := by
  cases d with
  | advance =>
    have hm : (Pop.advance : Pop α).share + m = m := zero_add m
    rcases ht.front_cases with hst | h3
    · have hlt := ht.lt_of_stage (p := g.front) (by rw [hst]; decide)
      rw [ht.moves_advance hst] at ha
      obtain rfl := List.mem_singleton.1 ha
      refine ⟨g.take, .go rfl ?_ (fun _ => rfl) (fun f => ?_) (fun hc => hc.take hst),
        g.le_take hst, ?_, ?_⟩
      · have := g.ready_setStage .taken hlt
        rw [hst] at this
        exact this
      · have := g.stock_setStage f .taken hlt
        rw [hst] at this
        change (g.setStage g.front .taken).stock f = _
        simpa [Stage.stocked, Stage.InStock, Stage.rank] using this
      · rw [hm] at ht
        exact ht.take hst
      · rintro t d' ⟨⟩
        exact ⟨g.values[g.front], List.getElem?_eq_getElem hlt, List.getElem?_eq_getElem hlt⟩
    · rw [ht.moves_advance_none h3] at ha
      obtain rfl := List.mem_singleton.1 ha
      exact ⟨g, .none rfl (ht.orderly.ready_eq_zero h3), .refl g, ht, by simp⟩
  | discard stub node x =>
    obtain ⟨w, rfl, hv⟩ := hk
    have hst : g.stage stub = .taken := ht.orderly.held.stage_eq (by decide)
    have hlt := ht.lt_of_stage (p := stub) (by rw [hst]; decide)
    rw [ht.moves_discard] at ha
    obtain rfl := List.mem_singleton.1 ha
    refine ⟨g.setStage stub .released, .some rfl ?_ (fun f => ?_) fun hc => ?_,
      g.le_setStage _ _ ?_, ?_, ?_⟩
    · have := g.ready_setStage .released hlt
      simpa [hst, Stage.waiting, takes] using this
    · have := g.stock_setStage f .released hlt
      cases hf : f w <;> simpa [hst, hv, hf, Stage.stocked, Stage.InStock, Stage.rank] using this
    · exact hc.setStage (by decide) (by rw [hst]; decide)
    · rw [hst]
      decide
    · simpa [Move.share, Move.state] using ht.release
    · rintro t d' ⟨⟩

theorem Push.Knows.mono {e : Push α} (l : g.Le h) (hk : e.Knows g v) : e.Knows h v := by
  cases e with
  | swap w => exact hk
  | link previous node => exact ⟨hk.1, l.value hk.2⟩

theorem Pop.Knows.mono {d : Pop α} (l : g.Le h) (hk : d.Knows g) : d.Knows h := by
  cases d with
  | advance => trivial
  | discard stub node x =>
    obtain ⟨w, hx, hv⟩ := hk
    exact ⟨w, hx, l.value hv⟩

theorem Push.moves_ne_nil {e : Push α} (ht : Tracks q g (e.share + m)) : e.moves q ≠ [] := by
  cases e with
  | swap w => simp [moves]
  | link previous node => simp [ht.moves_link]

theorem Pop.moves_ne_nil {d : Pop α} (ht : Tracks q g (d.share + m)) : d.moves q ≠ [] := by
  cases d with
  | advance =>
    rcases ht.front_cases with hst | h3
    · simp [ht.moves_advance hst]
    · simp [ht.moves_advance_none h3]
  | discard stub node x => simp [ht.moves_discard]

theorem Pop.untaken_not_mem {t : Linked α} {d e : Pop α} (hd : d.takes = false)
    (he : e.takes = false) : .go t e ∉ d.moves q := by
  cases d with
  | discard stub node x => exact absurd hd (by simp [takes])
  | advance =>
    cases e with
    | discard stub node x => exact absurd he (by simp [takes])
    | advance =>
      simp only [moves]
      split
      · simp
      · split
        · simp
        · split <;> simp

def Pop.hand : Pop α → Option α
  | .advance => none
  | .discard _ _ v => v

theorem Pop.hand_eq {d : Pop α} (f : α → Bool) (hk : d.Knows g) :
    g.carried f d.share = d.hand.toList.countP f := by
  cases d with
  | advance => exact g.carried_eq_zero f (fun _ => rfl) fun _ => rfl
  | discard stub node x =>
    obtain ⟨w, rfl, hv⟩ := hk
    exact g.carried_holding f (.inl rfl) hv

instance : Queue.Staged (Linked α) α (Push α) (Pop α) where
  Tracks _ q g m := q.Tracks g m
  Pushing _ g v e := e.Knows g v
  Popping g d := d.Knows g
  pushHold := Push.share
  popHold := Pop.share
  claims := Push.claims
  takes := Pop.takes
  Wraps := False
  ready := ready
  hand _ d := d.hand
  lag _ _ := 1
  orderly := Tracks.orderly
  ready_eq := Tracks.ready_eq
  pushHold_eq e p := by cases e <;> simp [Push.share, holding_apply]
  popHold_eq d p := by cases d <;> simp [Pop.share, holding_apply]
  hand_eq f _ hk := Pop.hand_eq f hk
  lag_enter _ := Queue.one_le_pace
  lag_pos _ _ _ := Nat.one_pos
  lag_step {n b t g m d e} _ _ _ hd he ha := by
    obtain ⟨c, hc, heq⟩ := List.mem_map.1 ha
    obtain rfl := Move.embed_eq_go.1 heq
    exact absurd hc (Pop.untaken_not_mem hd he)
  push_enter _ _ _ := ⟨rfl, rfl, rfl⟩
  pop_enter _ := ⟨trivial, rfl, rfl⟩
  push_mono := Push.Knows.mono
  pop_mono := Pop.Knows.mono
  push_step ht hk ha _ := by
    obtain ⟨c, hc, rfl⟩ := List.mem_map.1 ha
    obtain ⟨h, hs, hle, ht', hk'⟩ := Push.step ht hk hc
    refine ⟨h, hs, hle, ?_, fun t e' he => hk' t e' (Move.embed_eq_go.1 he)⟩
    cases c <;> exact ht'
  pop_step ht hk ha := by
    obtain ⟨c, hc, rfl⟩ := List.mem_map.1 ha
    obtain ⟨h, hs, hle, ht', hk'⟩ := Pop.step ht hk hc
    refine ⟨h, hs, hle, ?_, fun t d' he => hk' t d' (Move.embed_eq_go.1 he)⟩
    cases c <;> exact ht'
  push_moves_ne_nil ht _ h := Push.moves_ne_nil ht (List.map_eq_nil_iff.1 h)
  pop_moves_ne_nil ht _ h := Pop.moves_ne_nil ht (List.map_eq_nil_iff.1 h)

end Linked

end WorkStealing
