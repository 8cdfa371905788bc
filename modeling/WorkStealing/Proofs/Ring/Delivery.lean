import WorkStealing.Proofs.Crew.Run
import WorkStealing.Proofs.Ring.Step
import WorkStealing.Ring.Calls

namespace WorkStealing

variable {α : Type}

def Stage.Final (s : Stage) : Prop := s = .published ∨ s = .released

namespace Ghost

def reached (g : Ghost α) (s : Stage) (p : Nat) : Nat :=
  if s.rank ≤ (g.stage p).rank then 1 else 0

theorem reached_setStage (g : Ghost α) (s t : Stage) (p q : Nat)
    (h : (g.stage p).rank ≤ t.rank) : (g.setStage p t).reached s q =
      g.reached s q + if p = q ∧ (g.stage p).rank < s.rank ∧ s.rank ≤ t.rank then 1 else 0 := by
  by_cases e : p = q
  · subst e
    simp only [reached, setStage_self, true_and]
    split <;> split <;> split <;> omega
  · simp [reached, g.setStage_ne t (Ne.symm e), e]

end Ghost

namespace Ring

abbrev Client (α : Type) := Thread (Call α) (Point α) (Reply α)

def claimed? : Client α → Option (UInt64 × α)
  | .running (.push v) (.push (.write _ pos)) => some (pos, v)
  | .running (.push v) (.push (.publish pos)) => some (pos, v)
  | .finished (.push v) (.pushed (.ok pos)) => some (pos, v)
  | _ => none

def accepted? : Client α → Option (UInt64 × α)
  | .finished (.push v) (.pushed (.ok pos)) => some (pos, v)
  | _ => none

def taken? : Client α → Option UInt64
  | .running _ (.pop (.read pos)) => some pos
  | .running _ (.pop (.release pos _)) => some pos
  | .finished _ (.popped (some x)) => some x.1
  | _ => none

def fetched? : Client α → Option (UInt64 × α)
  | .running _ (.pop (.release pos v)) => some (pos, v)
  | .finished _ (.popped (some x)) => some x
  | _ => none

def delivered? : Client α → Option (UInt64 × α)
  | .finished _ (.popped (some x)) => some x
  | _ => none

def Calm : Client α → Prop
  | .running _ (.push e) => e.Unclaimed
  | .running _ (.pop d) => d.Unclaimed
  | .finished _ (.pushed (.error _)) => True
  | .finished _ (.popped none) => True
  | _ => False

/-- The stage at which a thread holds a position, or to which it has brought it. -/
def seat? : Client α → Option Hold
  | .running _ (.push (.write _ pos)) => some (.claimed, pos.toNat)
  | .running _ (.push (.publish pos)) => some (.written, pos.toNat)
  | .finished _ (.pushed (.ok pos)) => some (.published, pos.toNat)
  | .running _ (.pop (.read pos)) => some (.taken, pos.toNat)
  | .running _ (.pop (.release pos _)) => some (.read, pos.toNat)
  | .finished _ (.popped (some x)) => some (.released, x.1.toNat)
  | _ => none

def tally (t : Client α) : Option Hold → Nat
  | some x => if seat? t = some x then 1 else 0
  | none => if (claimed? t).isSome then 1 else 0

def Knows (n : Nat) (g : Ghost α) : Client α → Prop
  | .running (.push v) (.push e) => e.Knows n g v
  | .running .pop (.pop d) => d.Knows g
  | .finished (.push v) (.pushed (.ok pos)) => g.values[pos.toNat]? = some v
  | .finished (.push v) (.pushed (.error w)) => w = v
  | .finished .pop (.popped (some x)) => g.values[x.1.toNat]? = some x.2
  | .finished .pop (.popped none) => True
  | _ => False

theorem Knows.mono {n : Nat} {g h : Ghost α} (t : Client α) (l : g.Le h) (hk : Knows n g t) :
    Knows n h t := by
  rcases t with ⟨_ | _, e | d⟩ | ⟨_ | _, (w | pos) | (_ | x)⟩ <;>
    first
    | exact Push.Knows.mono l hk
    | exact Pop.Knows.mono l hk
    | exact l.value hk
    | exact hk

structure Seated (r : Ring α) (n : Nat) (g : Ghost α) (m : Option Hold → Nat) : Prop where
  tracks : Tracks r n g fun x => m (some x)
  reached : ∀ s p, s.Final → m (some (s, p)) = g.reached s p
  claims : m none = g.values.length

theorem Tracks.congr_hold {r : Ring α} {n : Nat} {g : Ghost α} {m m' : Hold → Nat}
    (h : Tracks r n g m) (hm : ∀ s p, s.Busy → m' (s, p) = m (s, p)) : Tracks r n g m' :=
  { h with held := fun s p hs => (hm s p hs).trans (h.held s p hs) }

theorem tally_push (c : Call α) (e : Push α) (m : Option Hold → Nat) :
    (fun x => (tally (.running c (.push e)) + m) (some x)) = e.share + fun x => m (some x) := by
  funext x
  cases e <;> simp [tally, seat?, Push.share, holding, Stage.Busy, Pi.single_apply, eq_comm]

theorem tally_pop (c : Call α) (d : Pop α) (m : Option Hold → Nat) :
    (fun x => (tally (.running c (.pop d)) + m) (some x)) = d.share + fun x => m (some x) := by
  funext x
  cases d <;> simp [tally, seat?, Pop.share, holding, Stage.Busy, Pi.single_apply, eq_comm]

theorem tally_finished (c : Call α) (y : Reply α) (m : Option Hold → Nat) (s : Stage) (p : Nat)
    (hs : s.Busy) : (tally (.finished c y) + m) (some (s, p)) = m (some (s, p)) := by
  have hseat : seat? (Thread.finished c y : Client α) ≠ some (s, p) := by
    rcases y with (w | pos) | (_ | x) <;> simp [seat?] <;> rintro rfl <;> simp [Stage.Busy] at hs
  simp [tally, hseat]

def pushing (a : Move (Ring α) (Push α) (Except α UInt64)) : Move (Ring α) (Point α) (Reply α) :=
  a.embed id .push fun r x => .done r (.pushed x)

def popping (a : Move (Ring α) (Pop α) (Option (UInt64 × α))) :
    Move (Ring α) (Point α) (Reply α) :=
  a.embed id .pop fun r x => .done r (.popped x)

section Steps

variable {r : Ring α} {n : Nat} {g h : Ghost α} {v : α} {m : Option Hold → Nat}

theorem Push.Step.reached {e : Push α} {a : Move (Ring α) (Push α) (Except α UInt64)}
    (hs : e.Step r g v a h) (h0 : g.stage g.values.length = .free) {s : Stage} (hf : s.Final)
    (p : Nat) : h.reached s p =
      tally ((pushing a).land (.push v)).2 (some (s, p)) + g.reached s p := by
  cases hs with
  | seek he hf' =>
    rename_i f
    rcases f with _ | _ | _ | _ | _ <;> simp [Push.Unclaimed] at hf' <;>
      simp [pushing, Move.embed, Move.land, tally, seat?]
  | refuse he => simp [pushing, Move.embed, Move.land, tally, seat?]
  | claim hp =>
    change (g.setStage g.values.length .claimed).reached s p = _
    rw [g.reached_setStage _ _ _ _ (by simp [h0, Stage.rank])]
    rcases hf with rfl | rfl <;> simp [pushing, Move.embed, Move.land, tally, seat?, Stage.rank]
  | write hs =>
    rw [g.reached_setStage _ _ _ _ (by simp [hs, Stage.rank])]
    rcases hf with rfl | rfl <;> simp [pushing, Move.embed, Move.land, tally, seat?, Stage.rank]
  | publish hs hv =>
    rw [g.reached_setStage _ _ _ _ (by simp [hs, Stage.rank])]
    rcases hf with rfl | rfl <;>
      simp [pushing, Move.embed, Move.land, tally, seat?, Stage.rank, hs, Nat.add_comm]

theorem Pop.Step.reached {d : Pop α} {a : Move (Ring α) (Pop α) (Option (UInt64 × α))}
    (hs : d.Step r g a h) {s : Stage} (hf : s.Final) (p : Nat) : h.reached s p =
      tally ((popping a).land .pop).2 (some (s, p)) + g.reached s p := by
  cases hs with
  | seek he hf' =>
    rename_i f
    rcases f with _ | _ | _ | _ | _ <;> simp [Pop.Unclaimed] at hf' <;>
      simp [popping, Move.embed, Move.land, tally, seat?]
  | miss hs => simp [popping, Move.embed, Move.land, tally, seat?]
  | claim hp hs =>
    change (g.setStage g.front .taken).reached s p = _
    rw [g.reached_setStage _ _ _ _ (by simp [hs, Stage.rank])]
    rcases hf with rfl | rfl <;>
      simp [popping, Move.embed, Move.land, tally, seat?, Stage.rank, hs]
  | read hs hv =>
    rw [g.reached_setStage _ _ _ _ (by simp [hs, Stage.rank])]
    rcases hf with rfl | rfl <;>
      simp [popping, Move.embed, Move.land, tally, seat?, Stage.rank, hs]
  | release hs hv =>
    rw [g.reached_setStage _ _ _ _ (by simp [hs, Stage.rank])]
    rcases hf with rfl | rfl <;>
      simp [popping, Move.embed, Move.land, tally, seat?, Stage.rank, hs, Nat.add_comm]

theorem Push.Step.claims {e : Push α} {a : Move (Ring α) (Push α) (Except α UInt64)}
    (hs : e.Step r g v a h) : tally ((pushing a).land (.push v)).2 none + g.values.length =
      tally (.running (.push v) (.push e)) none + h.values.length := by
  cases hs with
  | seek he hf' =>
    rename_i f
    rcases e with _ | _ | _ | _ | _ <;> simp [Push.Unclaimed] at he <;>
      rcases f with _ | _ | _ | _ | _ <;> simp [Push.Unclaimed] at hf' <;>
      simp [pushing, Move.embed, Move.land, tally, claimed?]
  | refuse he =>
    rcases e with _ | _ | _ | _ | _ <;> simp [Push.Unclaimed] at he <;>
      simp [pushing, Move.embed, Move.land, tally, claimed?]
  | claim hp =>
    simp [pushing, Move.embed, Move.land, tally, claimed?, Ghost.claim, Nat.add_comm]
  | write hs => simp [pushing, Move.embed, Move.land, tally, claimed?]
  | publish hs hv => simp [pushing, Move.embed, Move.land, tally, claimed?]

theorem Pop.Step.values {d : Pop α} {a : Move (Ring α) (Pop α) (Option (UInt64 × α))}
    (hs : d.Step r g a h) : h.values = g.values := by
  cases hs <;> rfl

theorem Seated.push {e : Push α} {a : Move (Ring α) (Push α) (Except α UInt64)}
    (hi : Seated r n g (tally (.running (.push v) (.push e)) + m))
    (hk : e.Knows n g v) (ha : a ∈ e.moves r)
    (hb : (tally ((pushing a).land (.push v)).2 + m) none < 2 ^ 63) :
    ∃ h, g.Le h ∧ Seated a.state n h (tally ((pushing a).land (.push v)).2 + m) ∧
      Knows n h ((pushing a).land (.push v)).2 := by
  have ht := hi.tracks
  rw [tally_push] at ht
  have hbound : ∀ t w pos, a = .go t (.write w pos) → g.values.length + 1 < 2 ^ 63 := by
    rintro t w pos rfl
    obtain rfl := Push.claim_of_write ha
    have hc := hi.claims
    simp only [Pi.add_apply, tally, pushing, Move.embed, Move.land, claimed?, Option.isSome_some,
      Option.isSome_none, if_true] at hb hc
    simp at hc
    omega
  obtain ⟨h, hs, hle, ht', hk'⟩ := Push.step ht hk ha hbound
  refine ⟨h, hle, ⟨?_, ?_, ?_⟩, ?_⟩
  · cases a with
    | go t f => rwa [pushing, Move.embed, Move.land, tally_push]
    | done t y =>
      refine ht'.congr_hold fun s p hs => ?_
      rw [pushing, Move.embed, Move.land, tally_finished _ _ _ _ _ hs]
      simp [Move.share]
  · intro s p hf
    rw [hs.reached ht.stage_back hf, Pi.add_apply, ← hi.reached s p hf, Pi.add_apply]
    have h0 : tally (.running (.push v) (.push e) : Client α) (some (s, p)) = 0 := by
      rcases hf with rfl | rfl <;> cases e <;> simp [tally, seat?]
    omega
  · have hc := hi.claims
    have := hs.claims
    rw [Pi.add_apply] at hc ⊢
    omega
  · cases hs with
    | seek he hf => exact hk' _ _ rfl
    | refuse he => rfl
    | claim hp => exact hk' _ _ rfl
    | write hs => exact hk' _ _ rfl
    | publish hs hv => exact hv

theorem Seated.pop {d : Pop α} {a : Move (Ring α) (Pop α) (Option (UInt64 × α))}
    (hi : Seated r n g (tally (.running .pop (.pop d)) + m)) (hk : d.Knows g)
    (ha : a ∈ d.moves r) :
    ∃ h, g.Le h ∧ Seated a.state n h (tally ((popping a).land .pop).2 + m) ∧
      Knows n h ((popping a).land .pop).2 := by
  have ht := hi.tracks
  rw [tally_pop] at ht
  obtain ⟨h, hs, hle, ht', hk'⟩ := Pop.step ht hk ha
  refine ⟨h, hle, ⟨?_, ?_, ?_⟩, ?_⟩
  · cases a with
    | go t f => rwa [popping, Move.embed, Move.land, tally_pop]
    | done t y =>
      refine ht'.congr_hold fun s p hs => ?_
      rw [popping, Move.embed, Move.land, tally_finished _ _ _ _ _ hs]
      simp [Move.share]
  · intro s p hf
    rw [hs.reached hf, Pi.add_apply, ← hi.reached s p hf, Pi.add_apply]
    have h0 : tally (.running .pop (.pop d) : Client α) (some (s, p)) = 0 := by
      rcases hf with rfl | rfl <;> cases d <;> simp [tally, seat?]
    omega
  · have hc := hi.claims
    rw [hs.values, ← hc]
    cases a <;> rfl
  · cases hs with
    | seek he hf => exact hk' _ _ rfl
    | miss hs => trivial
    | claim hp hs => exact hk' _ _ rfl
    | read hs hv => exact hk' _ _ rfl
    | release hs hv => exact hv

theorem claimed_isSome_move {r : Ring α} {c : Call α} {p : Point α}
    {a : Move (Ring α) (Point α) (Reply α)} (ha : a ∈ calls.moves r p)
    (h : (claimed? (.running c p)).isSome) : (claimed? (a.land c).2).isSome := by
  rcases p with e | d
  · obtain ⟨b, hb, rfl⟩ := List.mem_map.1 ha
    rcases c with v | _
    · rcases e with _ | _ | _ | ⟨w, pos⟩ | pos <;> simp [claimed?] at h
      · obtain rfl : b = _ := by simpa [Push.moves] using hb
        rfl
      · obtain rfl : b = _ := by simpa [Push.moves] using hb
        rfl
    · simp [claimed?] at h
  · rcases c with v | _ <;> simp [claimed?] at h

theorem calm_of_land {r : Ring α} {c : Call α} {p : Point α}
    {a : Move (Ring α) (Point α) (Reply α)} (ha : a ∈ calls.moves r p) (h : Calm (a.land c).2) :
    Calm (.running c p) ∧ a.state = r := by
  rcases p with e | d
  · obtain ⟨b, hb, rfl⟩ := List.mem_map.1 ha
    cases e with
    | look v =>
      obtain rfl : b = _ := by simpa [Push.moves] using hb
      exact ⟨trivial, rfl⟩
    | inspect v pos =>
      refine ⟨trivial, ?_⟩
      simp only [Push.moves] at hb
      split at hb
      · simp at hb
      · split at hb <;> obtain rfl : b = _ := by simpa using hb
        all_goals rfl
    | claim v pos =>
      refine ⟨trivial, ?_⟩
      simp only [Push.moves] at hb
      split at hb
      · rcases List.mem_cons.1 hb with rfl | hb
        · exact h.elim
        · obtain rfl : b = _ := by simpa using hb
          rfl
      · obtain rfl : b = _ := by simpa using hb
        rfl
    | write v pos =>
      obtain rfl : b = _ := by simpa [Push.moves] using hb
      exact h.elim
    | publish pos =>
      obtain rfl : b = _ := by simpa [Push.moves] using hb
      exact h.elim
  · obtain ⟨b, hb, rfl⟩ := List.mem_map.1 ha
    cases d with
    | look =>
      obtain rfl : b = _ := by simpa [Pop.moves] using hb
      exact ⟨trivial, rfl⟩
    | inspect pos =>
      refine ⟨trivial, ?_⟩
      simp only [Pop.moves] at hb
      split at hb
      · simp at hb
      · split at hb <;> obtain rfl : b = _ := by simpa using hb
        all_goals rfl
    | claim pos =>
      refine ⟨trivial, ?_⟩
      simp only [Pop.moves] at hb
      split at hb
      · rcases List.mem_cons.1 hb with rfl | hb
        · exact h.elim
        · obtain rfl : b = _ := by simpa using hb
          rfl
      · obtain rfl : b = _ := by simpa using hb
        rfl
    | read pos =>
      simp only [Pop.moves] at hb
      split at hb
      · simp at hb
      · obtain rfl : b = _ := by simpa using hb
        exact h.elim
    | release pos v =>
      obtain rfl : b = _ := by simpa [Pop.moves] using hb
      exact h.elim

end Steps

theorem run_seated {capacity : UInt64} {slotSize : Option UInt64} {r : Ring α}
    (hr : Ring.new capacity slotSize = .ok r)
    {log : List (Crew.Entry (Ring α) (Call α) (Point α) (Reply α))}
    {k : Crew (Ring α) (Call α) (Point α) (Reply α)}
    (h : Crew.Run calls (fun _ _ => True) ⟨r, []⟩ log k)
    (hb : Crew.total tally k none < 2 ^ 63) :
    ∃ g, Seated k.state capacity.toNat g (Crew.total tally k) ∧
      ∀ t ∈ k.threads, Knows capacity.toNat g t := by
  refine h.invariant tally (fun _ g s m => Seated s capacity.toNat g m) (Knows capacity.toNat)
    (fun _ m => m none < 2 ^ 63) Ghost.Le (fun _ _ t => Knows.mono t) ?_ ?_ ?_ ?_ ?_ hb
  · refine ⟨.start, ⟨tracks_start hr, fun s p hf => ?_, rfl⟩, by simp⟩
    rcases hf with rfl | rfl <;> simp [Crew.total, Ghost.reached, Ghost.start, Stage.rank]
  · intro log n c hw
    exact Nat.lt_of_le_of_lt (Nat.le_add_left _ _) hw
  · intro log n i c s p a ha hw
    refine Nat.lt_of_le_of_lt ?_ hw
    have hle : tally (.running c p) none ≤ tally (a.land c).2 none := by
      simp only [tally]
      split
      · rename_i hs
        simp [claimed_isSome_move ha hs]
      · omega
    exact Nat.add_le_add_right hle _
  · intro log g k c _ hi hk
    refine ⟨g, .refl g, ?_, ?_⟩
    · have h0 : tally (.running c (calls.enter c) : Client α) = 0 := by
        funext x
        cases c <;> cases x <;> simp [tally, calls, Call.enter, seat?, claimed?]
      rwa [h0, zero_add]
    · cases c
      · rfl
      · trivial
  · intro log g n i c s p a ha hi hk hw
    rcases p with e | d
    · obtain ⟨b, hb, rfl⟩ := List.mem_map.1 ha
      rcases c with v | _
      · obtain ⟨g', hle, hi', hk'⟩ := hi.push hk hb hw
        refine ⟨g', hle, ?_, hk'⟩
        cases b <;> exact hi'
      · exact hk.elim
    · obtain ⟨b, hb, rfl⟩ := List.mem_map.1 ha
      rcases c with v | _
      · exact hk.elim
      · obtain ⟨g', hle, hi', hk'⟩ := hi.pop hk hb
        refine ⟨g', hle, ?_, hk'⟩
        cases b <;> exact hi'

section Seats

variable {n : Nat} {g : Ghost α} {k : Crew (Ring α) (Call α) (Point α) (Reply α)}

theorem total_tally (x : Hold) :
    Crew.total tally k (some x) = (k.threads.filterMap seat?).count x := by
  rw [Crew.total_apply, Crew.count_filterMap]
  rfl

theorem exists_seat {x : Hold} (h : 0 < Crew.total tally k (some x)) :
    ∃ t ∈ k.threads, seat? t = some x := by
  rw [total_tally, List.count_pos_iff] at h
  exact List.mem_filterMap.1 h

theorem seat_pos {x : Hold} {t : Client α} (ht : t ∈ k.threads) (hx : seat? t = some x) :
    0 < Crew.total tally k (some x) := by
  rw [total_tally, List.count_pos_iff]
  exact List.mem_filterMap.2 ⟨t, ht, hx⟩

theorem claims_eq : Crew.total tally k none = (k.threads.filterMap claimed?).length := by
  rw [Crew.total_apply, Crew.total]
  induction k.threads with
  | nil => rfl
  | cons t ts ih =>
    rw [List.map_cons, List.sum_cons, ih]
    cases h : claimed? t <;> simp [tally, h, Nat.add_comm]

theorem Seated.busy (h : Seated k.state n g (Crew.total tally k)) {s : Stage} {p : Nat}
    (hs : s.Busy) : 0 < Crew.total tally k (some (s, p)) ↔ g.stage p = s := by
  have := h.tracks.held s p hs
  rw [this]
  split <;> simp_all

theorem Seated.final (h : Seated k.state n g (Crew.total tally k)) {s : Stage} {p : Nat}
    (hs : s.Final) : 0 < Crew.total tally k (some (s, p)) ↔ s.rank ≤ (g.stage p).rank := by
  rw [h.reached s p hs, Ghost.reached]
  split <;> simp_all

theorem Seated.accepted_iff (h : Seated k.state n g (Crew.total tally k))
    (hk : ∀ t ∈ k.threads, Knows n g t) {x : UInt64 × α} :
    x ∈ k.threads.filterMap accepted? ↔
      3 ≤ (g.stage x.1.toNat).rank ∧ g.values[x.1.toNat]? = some x.2 := by
  rw [List.mem_filterMap]
  constructor
  · rintro ⟨t, ht, hx⟩
    have hkt := hk t ht
    rcases t with ⟨c, p⟩ | ⟨_ | _, (w | pos) | y⟩ <;> simp [accepted?] at hx
    obtain rfl := hx
    refine ⟨(h.final (s := .published) (.inl rfl)).1 (seat_pos ht rfl), hkt⟩
  · rintro ⟨hr, hv⟩
    obtain ⟨t, ht, hs⟩ := exists_seat ((h.final (s := .published) (.inl rfl)).2 hr)
    have hkt := hk t ht
    rcases t with ⟨c, (_ | _ | _ | _ | _) | (_ | _ | _ | _ | _)⟩ | ⟨v | _, (w | pos) | (_ | y)⟩ <;>
      simp [seat?] at hs
    · have he : pos = x.1 := UInt64.toNat_inj.1 hs
      subst he
      have hv' : g.values[x.1.toNat]? = some v := hkt
      obtain rfl : x.2 = v := by simpa [hv] using hv'
      exact ⟨_, ht, rfl⟩
    · exact hkt.elim

theorem Seated.claimed_nodup (h : Seated k.state n g (Crew.total tally k)) :
    ((k.threads.filterMap claimed?).map Prod.fst).Nodup := by
  rw [List.nodup_iff_count_le_one]
  intro pos
  rw [List.map_filterMap, Crew.count_filterMap]
  have hle : ∀ t : Client α, (if (claimed? t).map Prod.fst = some pos then 1 else 0) ≤
      tally t (some (.claimed, pos.toNat)) + tally t (some (.written, pos.toNat)) +
        tally t (some (.published, pos.toNat)) := by
    intro t
    rcases t with ⟨_ | _, (_ | _ | _ | _ | _) | _⟩ | ⟨_ | _, (w | _) | (_ | _)⟩ <;>
      simp [claimed?, tally, seat?, UInt64.toNat_inj]
  refine (Crew.total_mono hle k).trans ?_
  rw [Crew.total_add, Crew.total_add, ← Crew.total_apply, ← Crew.total_apply, ← Crew.total_apply]
  have h1 := h.tracks.held .claimed pos.toNat (by decide)
  have h2 := h.tracks.held .written pos.toNat (by decide)
  have h3 := h.reached .published pos.toNat (.inl rfl)
  simp only [Ghost.reached] at h1 h2 h3
  rw [h1, h2, h3]
  cases g.stage pos.toNat <;> simp [Stage.rank]

theorem Seated.taken_nodup (h : Seated k.state n g (Crew.total tally k)) :
    (k.threads.filterMap taken?).Nodup := by
  rw [List.nodup_iff_count_le_one]
  intro pos
  rw [Crew.count_filterMap]
  have hle : ∀ t : Client α, (if taken? t = some pos then 1 else 0) ≤
      tally t (some (.taken, pos.toNat)) + tally t (some (.read, pos.toNat)) +
        tally t (some (.released, pos.toNat)) := by
    intro t
    rcases t with ⟨_, _ | (_ | _ | _ | _ | _)⟩ | ⟨_, (w | _) | (_ | _)⟩ <;>
      simp [taken?, tally, seat?, UInt64.toNat_inj]
  refine (Crew.total_mono hle k).trans ?_
  rw [Crew.total_add, Crew.total_add, ← Crew.total_apply, ← Crew.total_apply, ← Crew.total_apply]
  have h1 := h.tracks.held .taken pos.toNat (by decide)
  have h2 := h.tracks.held .read pos.toNat (by decide)
  have h3 := h.reached .released pos.toNat (.inr rfl)
  simp only [Ghost.reached] at h1 h2 h3
  rw [h1, h2, h3]
  cases g.stage pos.toNat <;> simp [Stage.rank]

theorem Seated.mem_taken (h : Seated k.state n g (Crew.total tally k)) {pos : UInt64}
    (hr : 4 ≤ (g.stage pos.toNat).rank) : pos ∈ k.threads.filterMap taken? := by
  have hseat : ∃ s, (s = .taken ∨ s = .read ∨ s = .released) ∧
      0 < Crew.total tally k (some (s, pos.toNat)) := by
    cases hs : g.stage pos.toNat <;> simp [hs, Stage.rank] at hr
    · exact ⟨.taken, by simp, (h.busy (by decide)).2 hs⟩
    · exact ⟨.read, by simp, (h.busy (by decide)).2 hs⟩
    · exact ⟨.released, by simp, (h.final (.inr rfl)).2 (by simp [hs])⟩
  obtain ⟨s, hs, hpos⟩ := hseat
  obtain ⟨t, ht, hx⟩ := exists_seat hpos
  refine List.mem_filterMap.2 ⟨t, ht, ?_⟩
  rcases t with ⟨c, (_ | _ | _ | _ | _) | (_ | _ | _ | _ | _)⟩ | ⟨c, (w | _) | (_ | _)⟩ <;>
    rcases hs with rfl | rfl | rfl <;> simp [seat?, UInt64.toNat_inj] at hx <;>
    simp [taken?, hx]

theorem Seated.room (h : Seated k.state n g (Crew.total tally k)) :
    (k.threads.filterMap claimed?).length ≤ (k.threads.filterMap delivered?).length + n := by
  rw [← claims_eq, h.claims]
  have hsub : List.range (g.values.length - n) ⊆
      (k.threads.filterMap delivered?).map fun x => x.1.toNat := by
    intro p hp
    rw [List.mem_range] at hp
    have hrel := h.tracks.reused (p + n) (by omega) (by omega)
    rw [Nat.add_sub_cancel] at hrel
    obtain ⟨t, ht, hx⟩ := exists_seat ((h.final (s := .released) (.inr rfl)).2 (by rw [hrel]))
    rcases t with ⟨c, (_ | _ | _ | _ | _) | (_ | _ | _ | _ | _)⟩ | ⟨c, (w | _) | (_ | y)⟩ <;>
      simp [seat?] at hx
    exact List.mem_map.2 ⟨y, List.mem_filterMap.2 ⟨_, ht, rfl⟩, hx⟩
  have := (List.subperm_of_subset List.nodup_range hsub).length_le
  simp at this
  omega

end Seats

def Refused : Client α → Prop
  | .finished _ (.pushed (.error _)) => True
  | .finished _ (.popped none) => True
  | _ => False

structure Delivers (n : Nat) (log : List (Crew.Entry (Ring α) (Call α) (Point α) (Reply α)))
    (k : Crew (Ring α) (Call α) (Point α) (Reply α)) : Prop where
  claim_once : ((k.threads.filterMap claimed?).map Prod.fst).Nodup
  take_once : (k.threads.filterMap taken?).Nodup
  value : ∀ x ∈ k.threads.filterMap fetched?, x ∈ k.threads.filterMap accepted?
  write : ∀ c v pos, .running c (.push (.write v pos)) ∈ k.threads →
    k.state.slot? pos = some ⟨pos, none⟩
  read : ∀ c pos, .running c (.pop (.read pos)) ∈ k.threads →
    ∃ v, (pos, v) ∈ k.threads.filterMap accepted? ∧ k.state.slot? pos = some ⟨pos + 1, some v⟩
  room : (k.threads.filterMap claimed?).length ≤ (k.threads.filterMap delivered?).length + n
  own : ∀ v w, .finished (.push v) (.pushed (.error w)) ∈ k.threads → w = v
  idle : ∀ i t, k.threads[i]? = some t → Refused t →
    ∀ e ∈ log, e.thread = i → e.move.state = e.before
  kept : ∀ x ∈ k.threads.filterMap accepted?, x.1 ∈ k.threads.filterMap taken? ∨
    k.state.slot? x.1 = some ⟨x.1 + 1, some x.2⟩

theorem run_delivers {capacity : UInt64} (hc : ∃ e, 1 ≤ e ∧ capacity.toNat = 2 ^ e)
    (slotSize : Option UInt64) : ∃ r : Ring α, Ring.new capacity slotSize = .ok r ∧
      ∀ log k, Crew.Run calls (fun _ _ => True) ⟨r, []⟩ log k →
        (k.threads.filterMap claimed?).length < 2 ^ 63 → Delivers capacity.toNat log k := by
  obtain ⟨r, hr⟩ := new_isOk (α := α) hc slotSize
  refine ⟨r, hr, fun log k hrun hb => ?_⟩
  obtain ⟨g, hi, hk⟩ := run_seated hr hrun (by rwa [claims_eq])
  have hslot {p : UInt64} (h0 : 0 < (g.stage p.toNat).rank) (h6 : g.stage p.toNat ≠ .released) :
      k.state.slot? p = some (g.slot p.toNat) := by
    have := hi.tracks.slot _ (hi.tracks.current_of_rank h0 h6)
    rwa [UInt64.ofNat_toNat] at this
  refine ⟨hi.claimed_nodup, hi.taken_nodup, ?_, ?_, ?_, hi.room, ?_, ?_, ?_⟩
  · intro x hx
    obtain ⟨t, ht, hx⟩ := List.mem_filterMap.1 hx
    have hkt := hk t ht
    rw [hi.accepted_iff hk]
    rcases t with ⟨_ | _, _ | (_ | _ | _ | _ | ⟨pos, v⟩)⟩ | ⟨_ | _, (w | _) | (_ | y)⟩ <;>
      simp [fetched?] at hx
    · exact hkt.elim
    · obtain rfl := hx
      have hs := (hi.busy (by decide)).1 (seat_pos ht rfl)
      exact ⟨by simp [hs, Stage.rank], hkt⟩
    · exact hkt.elim
    · obtain rfl := hx
      have hs := (hi.final (.inr rfl)).1 (seat_pos ht rfl)
      exact ⟨Nat.le_trans (by decide) hs, hkt⟩
  · intro c v pos ht
    have hs := (hi.busy (by decide)).1 (seat_pos ht rfl)
    rw [hslot (by simp [hs, Stage.rank]) (by simp [hs])]
    simp [Ghost.slot, hs]
  · intro c pos ht
    have hs := (hi.busy (by decide)).1 (seat_pos ht rfl)
    have hlt := (hi.tracks.claimed_iff pos.toNat).2 (by simp [hs, Stage.rank])
    refine ⟨g.values[pos.toNat], (hi.accepted_iff hk).2 ⟨by simp [hs, Stage.rank], by simp⟩, ?_⟩
    rw [hslot (by simp [hs, Stage.rank]) (by simp [hs])]
    simp [Ghost.slot, hs, hlt]
  · intro v w ht
    exact hk _ ht
  · intro i t ht hr'
    refine hrun.idle Calm (fun s c p a ha h => calm_of_land ha h) rfl ht ?_
    rcases t with ⟨_, _ | _⟩ | ⟨_, (w | _) | (_ | y)⟩ <;> simp [Refused] at hr' <;> trivial
  · intro x hx
    obtain ⟨hr3, hv⟩ := (hi.accepted_iff hk).1 hx
    by_cases hs : g.stage x.1.toNat = .published
    · refine .inr ?_
      rw [hslot (by simp [hs, Stage.rank]) (by simp [hs])]
      simp [Ghost.slot, hs, hv]
    · refine .inl (hi.mem_taken ?_)
      cases h : g.stage x.1.toNat <;> simp_all [Stage.rank]

def pair : Ring Nat := ⟨#[⟨0, none⟩, ⟨1, none⟩], 1, .inOrder 1, 0, 0⟩

def handover : List (Crew.Cue (Call Nat)) :=
  .start (.push 7) :: List.replicate 5 (.move 0 0) ++ .start .pop :: List.replicate 5 (.move 1 0)

theorem run_delivers_pair : ∃ log k, Crew.Run calls (fun _ _ => True) ⟨pair, []⟩ log k ∧
    k.threads = [.finished (.push 7) (.pushed (.ok 0)), .finished .pop (.popped (some (0, 7)))] ∧
    Delivers 2 log k := by
  have hn : Ring.new 2 none = .ok pair := by rfl
  have hp : (Crew.play calls (fun _ _ => true) handover [] ⟨pair, []⟩).map (fun x => x.2.threads) =
      some [.finished (.push 7) (.pushed (.ok 0)), .finished .pop (.popped (some (0, 7)))] := by rfl
  obtain ⟨⟨log, k⟩, hp, ht⟩ := Option.map_eq_some_iff.1 hp
  obtain ⟨r, hr, hd⟩ := @run_delivers Nat 2 ⟨1, le_rfl, rfl⟩ none
  obtain rfl : pair = r := by simpa [hn] using hr
  have hrun := Crew.run_play (fun _ _ _ => trivial) (.refl (m := calls)) hp
  exact ⟨log, k, hrun, ht, hd log k hrun (by rw [ht]; decide)⟩

end Ring

end WorkStealing
