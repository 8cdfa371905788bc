import WorkStealing.Linked.Calls
import WorkStealing.Proofs.Linked.Disposal

namespace WorkStealing.Linked

variable {α : Type}

abbrev Client (α : Type) := Thread (Call α) (Point α) (Reply α)

abbrev Event (α : Type) := Crew.Entry (Linked α) (Call α) (Point α) (Reply α)

def swap? (e : Event α) : Option α :=
  match e.point with
  | .push (.swap v) => some v
  | _ => none

def take? (e : Event α) : Option (Option α) :=
  match e.move with
  | .go _ (.pop (.discard _ _ v)) => some v
  | _ => none

def free? (e : Event α) : Option Nat :=
  match e.point with
  | .pop (.discard stub _ _) => some stub
  | _ => none

def swapped (log : List (Event α)) : List α := (log.filterMap swap?).reverse

def taken (log : List (Event α)) : List (Option α) := (log.filterMap take?).reverse

def freed (log : List (Event α)) : List Nat := log.filterMap free?

def own (i : Nat) (log : List (Event α)) : List (Event α) := log.filter (·.thread = i)

theorem swapped_cons (e : Event α) (log : List (Event α)) :
    swapped (e :: log) = swapped log ++ (swap? e).toList := by
  cases h : swap? e <;> simp [swapped, h]

theorem taken_cons (e : Event α) (log : List (Event α)) :
    taken (e :: log) = taken log ++ (take? e).toList := by
  cases h : take? e <;> simp [taken, h]

theorem freed_cons (e : Event α) (log : List (Event α)) :
    freed (e :: log) = (free? e).toList ++ freed log := by
  cases h : free? e <;> simp [freed, h]

def sent? : Client α → Option α
  | .running (.push v) (.push (.link _ _)) => some v
  | .finished (.push v) _ => some v
  | _ => none

def received? : Client α → Option (Option α)
  | .running _ (.pop (.discard _ _ v)) => some v
  | .finished _ (.popped (some x)) => some (some x.2)
  | _ => none

/-- The nodes that a step from this point reads or writes, apart from the one it makes. -/
def Point.touches (q : Linked α) : Point α → List Nat
  | .push (.swap _) => []
  | .push (.link previous _) => [previous]
  | .pop .advance => q.stub :: ((q.live? q.stub).bind Node.next).toList
  | .pop (.discard stub _ _) => [stub]
  | .look => [q.stub]

def share : Client α → Hold → Nat
  | .running _ (.push e) => e.share
  | .running _ (.pop d) => d.share
  | _ => 0

def Knows (g : Ghost α) : Client α → Prop
  | .running (.push v) (.push e) => e.Knows g v
  | .running .pop (.pop d) => d.Knows g
  | .running .isEmpty .look => True
  | .finished (.push _) (.pushed (.ok _)) => True
  | .finished .pop (.popped _) => True
  | .finished .isEmpty (.empty _) => True
  | _ => False

theorem Knows.mono {g h : Ghost α} (t : Client α) (l : g.Le h) (hk : Knows g t) : Knows h t := by
  rcases t with ⟨_ | _ | _, e | d | _⟩ | ⟨_ | _ | _, (w | a) | r | b⟩ <;>
    first
    | exact Push.Knows.mono l hk
    | exact Pop.Knows.mono l hk
    | exact hk

def pushing (b : Move (Linked α) (Push α) (Except α Nat)) : Move (Linked α) (Point α) (Reply α) :=
  b.embed id .push fun q x => .done q (.pushed x)

def popping (b : Move (Linked α) (Pop α) (Option (Nat × α))) :
    Move (Linked α) (Point α) (Reply α) :=
  b.embed id .pop fun q x => .done q (.popped x)

/-- The chain and the record of the steps on it agree with the ghost. -/
structure Told (log : List (Event α)) (q : Linked α) (g : Ghost α) (m : Hold → Nat) : Prop where
  tracks : Tracks q g m
  swaps : swapped log = g.values
  takes : taken log = (g.values.take g.front).map some
  frees : ∀ a, (freed log).count a = if g.stage a = .released then 1 else 0

namespace Told

variable {log : List (Event α)} {q : Linked α} {g : Ghost α} {m : Hold → Nat} {v : α} {i : Nat}

theorem frees_of_stage (hi : Told log q g m) {e : Event α} {h : Ghost α} (he : free? e = none)
    (hs : ∀ a, h.stage a = .released ↔ g.stage a = .released) (a : Nat) :
    (freed (e :: log)).count a = if h.stage a = .released then 1 else 0 := by
  simp only [freed_cons, he, hi.frees, hs, Option.toList_none, List.nil_append]

theorem push {e : Push α} {b : Move (Linked α) (Push α) (Except α Nat)}
    (hi : Told log q g (e.share + m)) (hk : e.Knows g v) (hb : b ∈ e.moves q) :
    ∃ h, g.Le h ∧ Told (⟨i, .push v, q, .push e, pushing b⟩ :: log) b.state h
      (share ((pushing b).land (.push v)).2 + m) ∧ Knows h ((pushing b).land (.push v)).2 := by
  have ht := hi.tracks
  have hback := ht.orderly.stage_back
  cases e with
  | swap w =>
    obtain rfl : w = v := hk
    obtain rfl := List.mem_singleton.1 hb
    have hm : (Push.swap w).share + m = m := zero_add m
    rw [hm] at ht
    refine ⟨g.claim w, g.le_claim w hback, ⟨?_, ?_, ?_, ?_⟩, ?_⟩
    · have := ht.claim w
      rwa [← ht.head] at this
    · simp [swapped_cons, swap?, hi.swaps, Ghost.claim]
    · have hle := ht.orderly.front_le
      simp [taken_cons, take?, pushing, Move.embed, hi.takes, Ghost.claim,
        List.take_append_of_le_length hle]
    · refine hi.frees_of_stage rfl fun a => ?_
      by_cases e : a = g.values.length
      · simp [Ghost.claim, e, hback]
      · simp [Ghost.claim, Ghost.setStage, e]
    · exact ⟨by rw [ht.head, ht.size], by simp [Ghost.claim, ht.head]⟩
  | link previous node =>
    obtain ⟨rfl, hv⟩ := hk
    have hst : g.stage previous = .claimed := ht.orderly.held.stage_eq (by decide)
    rw [ht.moves_link] at hb
    obtain rfl := List.mem_singleton.1 hb
    refine ⟨g.setStage previous .published, g.le_setStage _ _ (by rw [hst]; decide),
      ⟨?_, ?_, ?_, ?_⟩, trivial⟩
    · exact (zero_add m).symm ▸ ht.link
    · simp [swapped_cons, swap?, hi.swaps]
    · simp [taken_cons, take?, pushing, Move.embed, hi.takes]
    · refine hi.frees_of_stage rfl fun a => ?_
      by_cases e : a = previous
      · simp [e, hst]
      · rw [g.setStage_ne _ e]

theorem pop {d : Pop α} {b : Move (Linked α) (Pop α) (Option (Nat × α))}
    (hi : Told log q g (d.share + m)) (hk : d.Knows g) (hb : b ∈ d.moves q) :
    ∃ h, g.Le h ∧ Told (⟨i, .pop, q, .pop d, popping b⟩ :: log) b.state h
      (share ((popping b).land .pop).2 + m) ∧ Knows h ((popping b).land .pop).2 := by
  have ht := hi.tracks
  cases d with
  | advance =>
    have hm : (Pop.advance : Pop α).share + m = m := zero_add m
    rcases ht.front_cases with hst | h3
    · have hlt := ht.lt_of_stage (p := g.front) (by rw [hst]; decide)
      rw [ht.moves_advance hst] at hb
      obtain rfl := List.mem_singleton.1 hb
      refine ⟨g.take, g.le_take hst, ⟨?_, ?_, ?_, ?_⟩, ?_⟩
      · rw [hm] at ht
        exact ht.take hst
      · simp [swapped_cons, swap?, hi.swaps, Ghost.take]
      · rw [taken_cons, hi.takes]
        change _ ++ [g.values[g.front]?] = (g.values.take (g.front + 1)).map some
        rw [List.take_add_one, List.map_append, List.getElem?_eq_getElem hlt]
        rfl
      · refine hi.frees_of_stage rfl fun a => ?_
        by_cases e : a = g.front
        · simp [Ghost.take, e, hst]
        · simp [Ghost.take, Ghost.setStage, e]
      · exact ⟨g.values[g.front], List.getElem?_eq_getElem hlt, List.getElem?_eq_getElem hlt⟩
    · rw [ht.moves_advance_none h3] at hb
      obtain rfl := List.mem_singleton.1 hb
      refine ⟨g, .refl g, ⟨ht, ?_, ?_, hi.frees_of_stage rfl fun _ => .rfl⟩, trivial⟩
      · simp [swapped_cons, swap?, hi.swaps]
      · simp [taken_cons, take?, popping, Move.embed, hi.takes]
  | discard stub node x =>
    have hst : g.stage stub = .taken := ht.orderly.held.stage_eq (by decide)
    rw [ht.moves_discard] at hb
    obtain rfl := List.mem_singleton.1 hb
    refine ⟨g.setStage stub .released, g.le_setStage _ _ (by rw [hst]; decide),
      ⟨?_, ?_, ?_, fun a => ?_⟩, trivial⟩
    · exact (zero_add m).symm ▸ ht.release
    · simp [swapped_cons, swap?, hi.swaps]
    · simp [taken_cons, take?, popping, Move.embed, hi.takes]
    · rw [freed_cons]
      by_cases e : a = stub
      · simp [free?, e, hi.frees, hst]
      · simp [free?, Ne.symm e, hi.frees, g.setStage_ne _ e]

end Told

theorem run_told {log : List (Event α)} {k : Crew (Linked α) (Call α) (Point α) (Reply α)}
    (h : Crew.Run calls (fun _ _ => True) ⟨{}, []⟩ log k) :
    ∃ g, Told log k.state g (Crew.total share k) ∧ ∀ t ∈ k.threads, Knows g t := by
  refine h.invariant share (fun log g q m => Told log q g m) Knows (fun _ _ => True) Ghost.Le
    (fun _ _ t => Knows.mono t) ⟨.start, ⟨tracks_start, rfl, rfl, fun _ => rfl⟩, by simp⟩
    (fun _ _ _ _ => trivial) (fun _ _ _ _ _ _ _ _ _ => trivial) ?_ ?_ trivial
  · intro log g k c _ hi hk
    have h0 : share (.running c (calls.enter c) : Client α) = 0 := by cases c <;> rfl
    refine ⟨g, .refl g, by rwa [h0, zero_add], ?_⟩
    cases c
    · rfl
    · trivial
    · trivial
  · intro log g m i c s p a ha hi hk _
    rcases p with e | d | _
    · obtain ⟨b, hb, rfl⟩ := List.mem_map.1 ha
      rcases c with v | _ | _
      · obtain ⟨h, hle, hi', hk'⟩ := hi.push (i := i) hk hb
        exact ⟨h, hle, by cases b <;> exact hi', hk'⟩
      · exact hk.elim
      · exact hk.elim
    · obtain ⟨b, hb, rfl⟩ := List.mem_map.1 ha
      rcases c with v | _ | _
      · exact hk.elim
      · obtain ⟨h, hle, hi', hk'⟩ := hi.pop (i := i) hk hb
        exact ⟨h, hle, by cases b <;> exact hi', hk'⟩
      · exact hk.elim
    · rcases c with v | _ | _
      · exact hk.elim
      · exact hk.elim
      · simp only [calls, Point.moves, hi.tracks.live_stub] at ha
        obtain rfl := List.mem_singleton.1 ha
        refine ⟨g, .refl g, ⟨hi.tracks, ?_, ?_, hi.frees_of_stage rfl fun _ => .rfl⟩, trivial⟩
        · simp [swapped_cons, swap?, hi.swaps]
        · simp [taken_cons, take?, hi.takes]

section Own

theorem own_cons (i : Nat) (e : Event α) (log : List (Event α)) :
    own i (e :: log) = if e.thread = i then e :: own i log else own i log := by
  simp [own, List.filter_cons]

theorem sent?_land {g : Ghost α} {q : Linked α} {c : Call α} {p : Point α} {i : Nat}
    {a : Move (Linked α) (Point α) (Reply α)} (hk : Knows g (.running c p)) (ha : a ∈ p.moves q) :
    (swap? ⟨i, c, q, p, a⟩).toList ++ (sent? (.running c p)).toList =
      (sent? (a.land c).2).toList := by
  rcases p with e | d | _ <;> rcases c with v | _ | _ <;> try exact hk.elim
  · obtain ⟨b, hb, rfl⟩ := List.mem_map.1 ha
    cases e with
    | swap w =>
      obtain rfl : w = v := hk
      obtain rfl := List.mem_singleton.1 hb
      rfl
    | link previous node =>
      simp only [Push.moves] at hb
      split at hb
      · exact absurd hb List.not_mem_nil
      · obtain rfl := List.mem_singleton.1 hb
        rfl
  · obtain ⟨b, hb, rfl⟩ := List.mem_map.1 ha
    cases b <;> rfl
  · simp only [Point.moves] at ha
    split at ha
    · exact absurd ha List.not_mem_nil
    · obtain rfl := List.mem_singleton.1 ha
      rfl

theorem received?_land {g : Ghost α} {q : Linked α} {c : Call α} {p : Point α} {i : Nat}
    {a : Move (Linked α) (Point α) (Reply α)} (hk : Knows g (.running c p)) (ha : a ∈ p.moves q) :
    (take? ⟨i, c, q, p, a⟩).toList ++ (received? (.running c p)).toList =
      (received? (a.land c).2).toList := by
  rcases p with e | d | _ <;> rcases c with v | _ | _ <;> try exact hk.elim
  · obtain ⟨b, hb, rfl⟩ := List.mem_map.1 ha
    cases b <;> rfl
  · obtain ⟨b, hb, rfl⟩ := List.mem_map.1 ha
    cases d with
    | advance =>
      simp only [Pop.moves] at hb
      split at hb
      · exact absurd hb List.not_mem_nil
      · split at hb
        · obtain rfl := List.mem_singleton.1 hb
          rfl
        · split at hb
          · exact absurd hb List.not_mem_nil
          · obtain rfl := List.mem_singleton.1 hb
            rfl
    | discard stub node x =>
      obtain ⟨w, rfl, -⟩ := hk
      simp only [Pop.moves] at hb
      split at hb
      · exact absurd hb List.not_mem_nil
      · obtain rfl := List.mem_singleton.1 hb
        rfl
  · simp only [Point.moves] at ha
    split at ha
    · exact absurd ha List.not_mem_nil
    · obtain rfl := List.mem_singleton.1 ha
      rfl

theorem own_of_run {log : List (Event α)} {k : Crew (Linked α) (Call α) (Point α) (Reply α)}
    (h : Crew.Run calls (fun _ _ => True) ⟨{}, []⟩ log k) {i : Nat} {t : Client α}
    (ht : k.threads[i]? = some t) : (own i log).filterMap swap? = (sent? t).toList ∧
      (own i log).filterMap take? = (received? t).toList := by
  refine h.thread (fun i log t => (own i log).filterMap swap? = (sent? t).toList ∧
    (own i log).filterMap take? = (received? t).toList) ?_ ?_ ?_ ?_ ht
  · simp
  · intro log k c hr _
    have hown : own k.threads.length log = [] := by
      rw [own, List.filter_eq_nil_iff]
      intro e he
      have := hr.thread_lt e he
      simp only [decide_eq_true_eq]
      omega
    rw [hown]
    cases c <;> exact ⟨rfl, rfl⟩
  · intro i t e log hne ih
    rwa [own_cons, if_neg hne]
  · intro log s before after c p a hr ha ih
    obtain ⟨g, hi, hk⟩ := run_told hr
    have hk := hk (.running c p) (by simp)
    rw [own_cons, if_pos rfl, ← sent?_land (i := before.length) hk ha,
      ← received?_land (i := before.length) hk ha, ← ih.1, ← ih.2]
    simp only [List.filterMap_cons]
    constructor <;> split <;> simp [*]

end Own

section Points

variable {q : Linked α} {g : Ghost α} {m : Hold → Nat} {c : Call α} {p : Point α}

theorem Point.moves_ne_nil (ht : Tracks q g (share (.running c p) + m)) : p.moves q ≠ [] := by
  cases p with
  | push e => exact fun h => Push.moves_ne_nil ht (List.map_eq_nil_iff.1 h)
  | pop d => exact fun h => Pop.moves_ne_nil ht (List.map_eq_nil_iff.1 h)
  | look => simp [moves, ht.live_stub]

theorem Point.live_of_touches (ht : Tracks q g (share (.running c p) + m)) {a : Nat}
    (ha : a ∈ p.touches q) : (q.live? a).isSome := by
  cases p with
  | push e =>
    cases e with
    | swap v => exact absurd ha List.not_mem_nil
    | link previous node =>
      obtain rfl := List.mem_singleton.1 ha
      have hst : g.stage a = .claimed := ht.orderly.held.stage_eq (by decide)
      have hlt := ht.lt_of_stage (p := a) (by rw [hst]; decide)
      simp [ht.live hlt.le (by rw [hst]; decide)]
  | pop d =>
    cases d with
    | advance =>
      simp only [touches, ht.live_stub, Option.bind_some, List.mem_cons, Option.mem_toList] at ha
      rcases ha with rfl | ha
      · simp [ht.live_stub]
      · rcases ht.front_cases with hst | h3
        · obtain rfl : g.front + 1 = a := by simpa [Ghost.node, hst, Stage.rank] using ha
          simp [ht.live_next hst]
        · simp [Ghost.node, Nat.not_le.2 h3] at ha
    | discard stub node x =>
      obtain rfl := List.mem_singleton.1 ha
      have hst : g.stage a = .taken := ht.orderly.held.stage_eq (by decide)
      have hlt := ht.lt_of_stage (p := a) (by rw [hst]; decide)
      simp [ht.live hlt.le (by rw [hst]; decide)]
  | look =>
    obtain rfl := List.mem_singleton.1 ha
    simp [ht.live_stub]

theorem Point.rank_of_miss {s : Linked α} (ht : Tracks q g (share (.running c p) + m))
    (hk : Knows g (.running c p)) (hs : .done s (.popped none) ∈ p.moves q) :
    s = q ∧ (g.stage g.front).rank < 3 := by
  cases p with
  | push e =>
    obtain ⟨b, hb, he⟩ := List.mem_map.1 hs
    cases b <;> simp [Move.embed] at he
  | pop d =>
    obtain ⟨b, hb, he⟩ := List.mem_map.1 hs
    cases d with
    | advance =>
      rcases ht.front_cases with hst | h3
      · rw [ht.moves_advance hst] at hb
        obtain rfl := List.mem_singleton.1 hb
        simp [Move.embed] at he
      · rw [ht.moves_advance_none h3] at hb
        obtain rfl := List.mem_singleton.1 hb
        obtain rfl : q = s := by simpa [Move.embed] using he
        exact ⟨rfl, h3⟩
    | discard stub node x =>
      rcases c with v | _ | _
      · exact hk.elim
      · obtain ⟨w, rfl, -⟩ := hk
        rw [Tracks.moves_discard ht] at hb
        obtain rfl := List.mem_singleton.1 hb
        simp [Move.embed] at he
      · exact hk.elim
  | look =>
    simp only [moves, ht.live_stub] at hs
    simp at hs

theorem Point.nodes_of_not_touches (ht : Tracks q g (share (.running c p) + m))
    {a : Move (Linked α) (Point α) (Reply α)} (ha : a ∈ p.moves q) {b : Nat}
    (hb : b < q.nodes.size) (hn : b ∉ p.touches q) : a.state.nodes[b]? = q.nodes[b]? := by
  cases p with
  | push e =>
    obtain ⟨y, hy, rfl⟩ := List.mem_map.1 ha
    cases e with
    | swap v =>
      obtain rfl := List.mem_singleton.1 hy
      simp [Move.embed, Move.state, Array.getElem?_push, hb.ne]
    | link previous node =>
      rw [Tracks.moves_link ht] at hy
      obtain rfl := List.mem_singleton.1 hy
      have hne : previous ≠ b := fun e => hn (by simp [touches, e])
      simp [Move.embed, Move.state, setNext, getElem?_modify, hne]
  | pop d =>
    obtain ⟨y, hy, rfl⟩ := List.mem_map.1 ha
    cases d with
    | advance =>
      rcases ht.front_cases with hst | h3
      · rw [ht.moves_advance hst] at hy
        obtain rfl := List.mem_singleton.1 hy
        have hnext : (g.node g.front).next = some (g.front + 1) := if_pos (by rw [hst]; decide)
        have hne : g.front + 1 ≠ b := fun e => hn (by simp [touches, ht.live_stub, hnext, e])
        change (q.modify (g.front + 1) _).nodes[b]? = _
        rw [getElem?_modify, if_neg hne]
      · rw [ht.moves_advance_none h3] at hy
        obtain rfl := List.mem_singleton.1 hy
        rfl
    | discard stub node x =>
      rw [Tracks.moves_discard ht] at hy
      obtain rfl := List.mem_singleton.1 hy
      have hne : stub ≠ b := fun e => hn (by simp [touches, e])
      simp [Move.embed, Move.state, free, getElem?_modify, hne]
  | look =>
    simp only [moves, ht.live_stub] at ha
    obtain rfl := List.mem_singleton.1 ha
    rfl

end Points

section Totals

variable {log : List (Event α)} {k : Crew (Linked α) (Call α) (Point α) (Reply α)} {g : Ghost α}

theorem share_written (k : Crew (Linked α) (Call α) (Point α) (Reply α)) (p : Nat) :
    Crew.total share k (.written, p) = 0 := by
  rw [Crew.total_apply]
  refine Crew.total_eq_zero fun t _ => ?_
  rcases t with ⟨_, (_ | _) | (_ | _) | _⟩ | _ <;> simp [share, Push.share, Pop.share, holding_apply]

theorem Told.exists_link (hi : Told log k.state g (Crew.total share k))
    (hk : ∀ t ∈ k.threads, Knows g t) {p : Nat} (hp : g.stage p = .claimed) :
    ∃ v node, g.values[p]? = some v ∧ .running (.push v) (.push (.link p node)) ∈ k.threads := by
  have hheld := hi.tracks.orderly.held .claimed p (by decide)
  rw [if_pos hp, Crew.total_apply] at hheld
  obtain ⟨t, ht, hpos⟩ : ∃ t ∈ k.threads, share t (.claimed, p) ≠ 0 := by
    by_contra hne
    push Not at hne
    rw [Crew.total_eq_zero hne] at hheld
    exact absurd hheld (by decide)
  have hkt := hk t ht
  rcases t with ⟨_ | _ | _, (_ | ⟨previous, node⟩) | (_ | ⟨stub, node, x⟩) | _⟩ | ⟨_, _⟩ <;>
    simp [share, Push.share, Pop.share, holding_apply, Stage.Busy] at hpos
  · obtain rfl := hpos
    exact ⟨_, node, hkt.2, ht⟩
  · exact hkt.elim
  · exact hkt.elim

theorem Told.length_taken (hi : Told log k.state g (Crew.total share k)) :
    (taken log).length = g.front := by
  have hle := hi.tracks.orderly.front_le
  simp [hi.takes, hle]

theorem Told.taken_eq_iff (hi : Told log k.state g (Crew.total share k)) :
    taken log = (swapped log).map some ↔ g.front = g.values.length := by
  have hle := hi.tracks.orderly.front_le
  rw [hi.takes, hi.swaps, (List.map_injective_iff.2 (Option.some_injective α)).eq_iff]
  rw [List.take_eq_self_iff]
  omega

theorem Told.isEmpty_iff (hi : Told log k.state g (Crew.total share k)) :
    k.state.isEmpty ↔ (g.stage g.front).rank < 3 := by
  rw [isEmpty, hi.tracks.live_stub]
  simp [Ghost.node]

theorem Told.mem_freed (hi : Told log k.state g (Crew.total share k)) (a : Nat) :
    a ∈ freed log ↔ g.stage a = .released := by
  rw [← List.count_pos_iff, hi.frees]
  split <;> simp [*]

theorem Told.nodup_freed (hi : Told log k.state g (Crew.total share k)) : (freed log).Nodup := by
  rw [List.nodup_iff_count_le_one]
  intro a
  rw [hi.frees]
  split <;> decide

theorem Told.perm_of_idle (hi : Told log k.state g (Crew.total share k))
    (hm : Idle (Crew.total share k)) :
    (freed log).Perm (List.range g.front) := by
  have ht := hi.tracks
  refine (List.perm_ext_iff_of_nodup hi.nodup_freed List.nodup_range).2 fun a => ?_
  rw [hi.mem_freed, List.mem_range]
  refine ⟨fun hs => (ht.orderly.taken_iff a).2 (by rw [hs]; decide), fun hlt => ?_⟩
  exact ht.orderly.released_of_lt hm hlt

theorem Told.freed_iff (hi : Told log k.state g (Crew.total share k)) (a : Nat) :
    a ∈ freed log ↔ ∃ n, k.state.nodes[a]? = some n ∧ n.freed := by
  have ht := hi.tracks
  rw [hi.mem_freed]
  constructor
  · intro hs
    have hlt := ht.lt_of_stage (p := a) (by rw [hs]; decide)
    exact ⟨_, ht.node a hlt.le, by simp [Ghost.node, hs]⟩
  · rintro ⟨n, hn, hf⟩
    have hlt := (Array.getElem?_eq_some_iff.1 hn).1
    rw [ht.node a (by rw [ht.size] at hlt; omega)] at hn
    obtain rfl := Option.some.inj hn
    simpa [Ghost.node] using hf

theorem Told.split (hi : Told log k.state g (Crew.total share k)) {c : Call α} {p : Point α}
    (hp : .running c p ∈ k.threads) : ∃ m, Tracks k.state g (share (.running c p) + m) := by
  obtain ⟨before, after, he⟩ := List.append_of_mem hp
  refine ⟨Crew.total share ⟨k.state, before ++ after⟩, ?_⟩
  rw [← Crew.total_split, ← he]
  exact hi.tracks

theorem Told.isEmpty_iff_link (hi : Told log k.state g (Crew.total share k))
    (hk : ∀ t ∈ k.threads, Knows g t) :
    k.state.isEmpty ↔ taken log = (swapped log).map some ∨ ∃ v node,
      (swapped log)[(taken log).length]? = some v ∧
        .running (.push v) (.push (.link k.state.stub node)) ∈ k.threads := by
  have ht := hi.tracks
  rw [hi.isEmpty_iff, hi.taken_eq_iff, hi.length_taken, hi.swaps, ht.stub]
  constructor
  · intro h3
    rcases Nat.eq_or_lt_of_le ht.orderly.front_le with he | hlt
    · exact .inl he
    · have h0 := (ht.orderly.claimed_iff g.front).1 hlt
      have hwritten := ht.orderly.held.ne (p := g.front) (by decide) (share_written k g.front)
      have hclaimed : g.stage g.front = .claimed := by
        revert h0 h3 hwritten
        cases g.stage g.front <;> simp [Stage.rank]
      obtain ⟨v, node, hv, hmem⟩ := hi.exists_link hk hclaimed
      exact .inr ⟨v, node, hv, hmem⟩
  · rintro (he | ⟨v, node, -, hmem⟩)
    · rw [he, ht.orderly.stage_back]
      decide
    · obtain ⟨m, ht'⟩ := hi.split hmem
      have hst : g.stage g.front = .claimed := ht'.orderly.held.stage_eq (by decide)
      rw [hst]
      decide

theorem Told.notMem_freed_of_touches (hi : Told log k.state g (Crew.total share k)) {c : Call α}
    {p : Point α} (hp : .running c p ∈ k.threads) {a : Nat} (ha : a ∈ p.touches k.state) :
    a < k.state.nodes.size ∧ a ∉ freed log := by
  obtain ⟨m, ht⟩ := hi.split hp
  obtain ⟨n, hn⟩ := Option.isSome_iff_exists.1 (Point.live_of_touches ht ha)
  obtain ⟨hn, hf⟩ := Option.filter_eq_some_iff.1 hn
  refine ⟨(Array.getElem?_eq_some_iff.1 hn).1, fun hmem => ?_⟩
  obtain ⟨n', hn', hf'⟩ := (hi.freed_iff a).1 hmem
  obtain rfl : n = n' := Option.some.inj (hn.symm.trans hn')
  simp [hf'] at hf

theorem Told.disposes (hi : Told log k.state g (Crew.total share k))
    (hidle : ∀ t ∈ k.threads, t.isRunning = false) : ∃ as vs r,
      Disposes k.state (some k.state.stub) as vs r ∧ k.state.dispose = (r, vs) ∧
        (freed log ++ as).Perm (List.range k.state.nodes.size) ∧
        taken log ++ vs.map some = (swapped log).map some := by
  have ht := hi.tracks
  have hle := ht.orderly.front_le
  have hm : Idle (Crew.total share k) := fun s p _ => by
    rw [Crew.total_apply]
    refine Crew.total_eq_zero fun t htm => ?_
    have := hidle t htm
    cases t with
    | running c p => exact absurd this (by simp [Thread.isRunning])
    | finished c r => rfl
  obtain ⟨r, hr, hd⟩ := ht.disposes hm
  refine ⟨_, _, r, hr, hd, ?_, ?_⟩
  · refine ((hi.perm_of_idle hm).append_right _).trans ?_
    have happ := List.range'_append_1 (s := 0) (m := g.front) (n := g.values.length + 1 - g.front)
    rw [Nat.zero_add, Nat.add_sub_cancel' (by omega)] at happ
    rw [ht.size, List.range_eq_range', List.range_eq_range', happ]
  · rw [hi.takes, hi.swaps, ← List.map_append, List.take_append_drop]

end Totals

structure Conveys (log : List (Event α)) (k : Crew (Linked α) (Call α) (Point α) (Reply α)) :
    Prop where
  fifo : taken log <+: (swapped log).map some
  sends : ∀ i t, k.threads[i]? = some t → (own i log).filterMap swap? = (sent? t).toList
  receives : ∀ i t, k.threads[i]? = some t → (own i log).filterMap take? = (received? t).toList
  accepts : ∀ c r, .finished c (.pushed r) ∈ k.threads → ∃ a, r = .ok a
  isEmpty_iff : k.state.isEmpty ↔ taken log = (swapped log).map some ∨ ∃ v node,
    (swapped log)[(taken log).length]? = some v ∧
      .running (.push v) (.push (.link k.state.stub node)) ∈ k.threads
  misses : ∀ c p s, .running c p ∈ k.threads → .done s (.popped none) ∈ p.moves k.state →
    k.state.isEmpty ∧ s = k.state
  free_once : (freed log).Nodup
  freed_iff : ∀ a, a ∈ freed log ↔ ∃ n, k.state.nodes[a]? = some n ∧ n.freed
  safe : ∀ c p, .running c p ∈ k.threads → p.moves k.state ≠ [] ∧
    (∀ a ∈ p.touches k.state, a < k.state.nodes.size ∧ a ∉ freed log) ∧
    ∀ a ∈ p.moves k.state, ∀ b < k.state.nodes.size, b ∉ p.touches k.state →
      a.state.nodes[b]? = k.state.nodes[b]?
  disposes : (∀ t ∈ k.threads, t.isRunning = false) → ∃ as vs r,
    Disposes k.state (some k.state.stub) as vs r ∧ k.state.dispose = (r, vs) ∧
      (freed log ++ as).Perm (List.range k.state.nodes.size) ∧
      taken log ++ vs.map some = (swapped log).map some

theorem run_conveys {log : List (Event α)} {k : Crew (Linked α) (Call α) (Point α) (Reply α)}
    (h : Crew.Run calls (fun _ _ => True) ⟨{}, []⟩ log k) : Conveys log k := by
  obtain ⟨g, hi, hk⟩ := run_told h
  refine ⟨?_, fun i t hit => (own_of_run h hit).1, fun i t hit => (own_of_run h hit).2, ?_,
    hi.isEmpty_iff_link hk, ?_, hi.nodup_freed, hi.freed_iff, ?_, hi.disposes⟩
  · rw [hi.takes, hi.swaps]
    exact (List.take_prefix _ _).map some
  · intro c r hr
    have hkt := hk _ hr
    rcases c with v | _ | _ <;> rcases r with w | a <;> first | exact hkt.elim | exact ⟨a, rfl⟩
  · intro c p s hp hs
    obtain ⟨m, ht⟩ := hi.split hp
    obtain ⟨rfl, h3⟩ := Point.rank_of_miss ht (hk _ hp) hs
    exact ⟨hi.isEmpty_iff.2 h3, rfl⟩
  · intro c p hp
    obtain ⟨m, ht⟩ := hi.split hp
    exact ⟨Point.moves_ne_nil ht, fun a ha => hi.notMem_freed_of_touches hp ha,
      fun a ha b hb hn => Point.nodes_of_not_touches ht ha hb hn⟩

/-- Two pushes swap and the later one links first, so that a pop finds nothing; then two pops take a
value each and free their nodes the other way round. -/
def crossing : List (Crew.Cue (Call Nat)) :=
  [.start (.push 1), .start (.push 2), .move 0 0, .move 1 0, .move 1 0, .start .pop, .move 2 0,
    .move 0 0, .start .pop, .start .pop, .move 3 0, .move 4 0, .move 4 0, .move 3 0]

theorem run_conveys_crossing : ∃ log k, Crew.Run calls (fun _ _ => True) ⟨{}, []⟩ log k ∧
    k.threads = [.finished (.push 1) (.pushed (.ok 1)), .finished (.push 2) (.pushed (.ok 2)),
      .finished .pop (.popped none), .finished .pop (.popped (some (1, 1))),
      .finished .pop (.popped (some (2, 2)))] ∧
    taken log = [some 1, some 2] ∧ freed log = [0, 1] ∧ Conveys log k := by
  have hp : (Crew.play calls (fun _ _ => true) crossing [] ⟨{}, []⟩).map
      (fun x => (x.2.threads, taken x.1, freed x.1)) = some
      ([.finished (.push 1) (.pushed (.ok 1)), .finished (.push 2) (.pushed (.ok 2)),
        .finished .pop (.popped none), .finished .pop (.popped (some (1, 1))),
        .finished .pop (.popped (some (2, 2)))], [some 1, some 2], [0, 1]) := by rfl
  obtain ⟨⟨log, k⟩, hp, hx⟩ := Option.map_eq_some_iff.1 hp
  have hrun := Crew.run_play (fun _ _ _ => trivial) (.refl (m := calls)) hp
  simp only [Prod.mk.injEq] at hx
  exact ⟨log, k, hrun, hx.1, hx.2.1, hx.2.2, run_conveys hrun⟩

end WorkStealing.Linked
