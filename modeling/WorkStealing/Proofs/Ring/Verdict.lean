import WorkStealing.Proofs.Ring.Delivery

namespace WorkStealing

variable {α : Type}

namespace Crew

variable {S C P R : Type}

structure During (m : Machine S C P R) (i : Nat) (j : Crew S C P R) (recent : List (Entry S C P R))
    (k l : Crew S C P R) : Prop where
  split : ∃ past rest, Run m (fun _ _ => True) j past l ∧ Run m (fun _ _ => True) l rest k ∧
    rest ++ past = recent
  running : ∃ c p, l.threads[i]? = some (.running c p)

theorem Run.last_step {m : Machine S C P R} {first k : Crew S C P R} {log : List (Entry S C P R)}
    (h : Run m (fun _ _ => True) first log k) {i : Nat} {c : C} {x : R}
    (hfirst : ∀ c x, first.threads[i]? ≠ some (.finished c x))
    (ht : k.threads[i]? = some (.finished c x)) : ∃ s before after p a past,
      Run m (fun _ _ => True) first past ⟨s, before ++ .running c p :: after⟩ ∧
        a ∈ m.moves s p ∧ (a.land c).2 = .finished c x ∧
        During m i first log k ⟨s, before ++ .running c p :: after⟩ := by
  refine h.thread_to (fun i' _ t => i' = i → t = .finished c x → ∃ s before after p a past,
    Run m (fun _ _ => True) first past ⟨s, before ++ .running c p :: after⟩ ∧
      a ∈ m.moves s p ∧ (a.land c).2 = .finished c x ∧
      During m i first log k ⟨s, before ++ .running c p :: after⟩) ?_ ?_ ?_ ?_ ht rfl rfl
  · rintro i' t hit rfl rfl
    exact absurd hit (hfirst c x)
  · intro log l d _ _ _ hd
    exact absurd hd (by simp)
  · exact fun i' t e log _ ih => ih
  · intro past rest s before after d p a hr ha hrest hlog _ hi hd
    obtain rfl : d = c := by cases a <;> simp_all [Move.land]
    exact ⟨s, before, after, p, a, past, hr, ha, hd, ⟨past, rest, hr, hrest, hlog⟩,
      d, p, by simp [← hi]⟩

end Crew

namespace Ring

abbrev Party (α : Type) := Crew (Ring α) (Call α) (Point α) (Reply α)

section Behind

variable {r : Ring α} {n : Nat} {g : Ghost α} {m : Hold → Nat} {pos : UInt64} {s : Slot α}

theorem Tracks.full_of_behind (h : Tracks r n g m) (hfew : g.values.length + n < 2 ^ 63)
    (hs : r.slot? pos = some s) (ht : turn s.tag pos = .behind)
    (hp : pos.toNat ≤ g.values.length) :
    g.values.length = pos.toNat - n + n ∧ g.stage (pos.toNat - n) ≠ .released := by
  have h2 := h.shaped.two_le
  have hnot {t : Nat} (hle : pos.toNat ≤ t) (hlt : t < 2 ^ 63) (he : s.tag = .ofNat t) : False :=
    turn_ne_behind (by omega) hle (by omega) (he ▸ ht)
  have hcurrent {p : Nat} (hc : g.Current n p) (hmod : p % n = pos.toNat % n)
      (hle : pos.toNat ≤ p) (hlt : p + 1 < 2 ^ 63) : False := by
    have hslot := Option.some.inj ((h.slot?_of_mod hc hmod).symm.trans hs)
    rcases g.slot_tag p with e | e
    · exact hnot hle (by omega) (hslot ▸ e)
    · exact hnot (by omega) hlt (hslot ▸ e)
  have hrel : g.stage pos.toNat ≠ .released := by
    intro hrel
    obtain ⟨d, hc, hlen⟩ := h.exists_current hrel
    exact hcurrent hc (by rw [Nat.add_mod_right, Nat.add_mul_mod_self_right]) (by omega) (by omega)
  have hlen : pos.toNat = g.values.length := by
    refine hp.antisymm (Nat.not_lt.1 fun hlt => ?_)
    exact hcurrent ⟨hrel, h.reused _ hlt⟩ rfl le_rfl (by omega)
  obtain ⟨hn, hr⟩ : n ≤ pos.toNat ∧ g.stage (pos.toNat - n) ≠ .released := by
    by_contra hc
    refine hcurrent (p := pos.toNat) ⟨hrel, fun hn => ?_⟩ rfl le_rfl (by omega)
    by_contra hr
    exact hc ⟨hn, hr⟩
  exact ⟨by omega, hr⟩

end Behind

/-- A call is half-way: it has claimed a position and not handed it on. -/
def HalfWay (t : Client α) : Prop :=
  t.isRunning ∧ ((claimed? t).isSome ∨ (taken? t).isSome)

def Exhausted (l : Party α) : Prop :=
  ∀ x ∈ l.threads.filterMap accepted?, x.1 ∈ l.threads.filterMap taken? ∨
    ∃ t ∈ l.threads, HalfWay t ∧ ∃ y, claimed? t = some y ∧ y.1 < x.1 ∧
      y.1 ∉ l.threads.filterMap taken?

/-- None of the latest `n` positions claimed has been taken, or the oldest of them is in the hands
of a pop that is half-way. With nobody half-way, `n` accepted values have not been returned. -/
def Full (n : Nat) (l : Party α) : Prop :=
  ∃ q, (l.threads.filterMap claimed?).length = q + n ∧
    ((∃ t ∈ l.threads, HalfWay t ∧ (taken? t).map UInt64.toNat = some q) ∨
      ∀ x ∈ l.threads.filterMap claimed?, q ≤ x.1.toNat → x.1 ∉ l.threads.filterMap taken?) ∧
    ((∀ t ∈ l.threads, ¬ HalfWay t) →
      (l.threads.filterMap accepted?).length = (l.threads.filterMap delivered?).length + n)

section Moments

variable {n : Nat} {g : Ghost α} {l : Party α}

theorem Seated.mem_taken_iff (h : Seated l.state n g (Crew.total tally l)) (pos : UInt64) :
    pos ∈ l.threads.filterMap taken? ↔ pos.toNat < g.front := by
  rw [h.tracks.taken_iff]
  refine ⟨fun hmem => ?_, h.mem_taken⟩
  obtain ⟨t, ht, hx⟩ := List.mem_filterMap.1 hmem
  rcases t with ⟨c, e | (_ | _ | _ | p | ⟨p, v⟩)⟩ | ⟨c, (w | _) | (_ | y)⟩ <;>
    simp [taken?] at hx <;> subst hx
  · rw [(h.busy (s := .taken) (by decide)).1 (seat_pos ht rfl)]
    decide
  · rw [(h.busy (s := .read) (by decide)).1 (seat_pos ht rfl)]
    decide
  · exact Nat.lt_of_lt_of_le (by decide) ((h.final (s := .released) (.inr rfl)).1 (seat_pos ht rfl))

theorem Seated.exists_push (h : Seated l.state n g (Crew.total tally l))
    (hk : ∀ t ∈ l.threads, Knows n g t) {p : Nat} (h0 : 0 < (g.stage p).rank)
    (h3 : (g.stage p).rank < 3) :
    ∃ t ∈ l.threads, HalfWay t ∧ ∃ y, claimed? t = some y ∧ y.1.toNat = p := by
  obtain ⟨s, hs, hseat⟩ : ∃ s, (s = .claimed ∨ s = .written) ∧
      0 < Crew.total tally l (some (s, p)) := by
    cases hst : g.stage p <;> simp [hst, Stage.rank] at h0 h3
    · exact ⟨.claimed, .inl rfl, (h.busy (by decide)).2 hst⟩
    · exact ⟨.written, .inr rfl, (h.busy (by decide)).2 hst⟩
  obtain ⟨t, ht, hx⟩ := exists_seat hseat
  have hkt := hk t ht
  refine ⟨t, ht, ?_⟩
  rcases t with ⟨_ | _, (_ | _ | _ | ⟨w, q⟩ | q) | (_ | _ | _ | _ | _)⟩ | ⟨c, (w | q) | (_ | y)⟩ <;>
    rcases hs with rfl | rfl <;> simp [seat?] at hx <;>
    first
    | exact hkt.elim
    | exact ⟨⟨rfl, .inl rfl⟩, _, rfl, hx⟩

theorem Seated.exists_pop (h : Seated l.state n g (Crew.total tally l)) {p : Nat}
    (h3 : 3 < (g.stage p).rank) (h6 : g.stage p ≠ .released) :
    ∃ t ∈ l.threads, HalfWay t ∧ (taken? t).map UInt64.toNat = some p := by
  obtain ⟨s, hs, hseat⟩ : ∃ s, (s = .taken ∨ s = .read) ∧
      0 < Crew.total tally l (some (s, p)) := by
    cases hst : g.stage p <;> simp [hst, Stage.rank] at h3 h6
    · exact ⟨.taken, .inl rfl, (h.busy (by decide)).2 hst⟩
    · exact ⟨.read, .inr rfl, (h.busy (by decide)).2 hst⟩
  obtain ⟨t, ht, hx⟩ := exists_seat hseat
  refine ⟨t, ht, ?_⟩
  rcases t with ⟨c, (_ | _ | _ | _ | _) | (_ | _ | _ | q | ⟨q, v⟩)⟩ | ⟨c, (w | q) | (_ | y)⟩ <;>
    rcases hs with rfl | rfl <;> simp [seat?] at hx <;>
    exact ⟨⟨rfl, .inr rfl⟩, by simp [taken?, hx]⟩

theorem Seated.exhausted (h : Seated l.state n g (Crew.total tally l))
    (hk : ∀ t ∈ l.threads, Knows n g t) (hr : (g.stage g.front).rank < 3) : Exhausted l := by
  intro x hx
  obtain ⟨h3, -⟩ := (h.accepted_iff hk).1 hx
  have hfront := h.tracks.taken_iff x.1.toNat
  rcases Nat.lt_trichotomy x.1.toNat g.front with hlt | he | hgt
  · exact .inl ((h.mem_taken_iff _).2 hlt)
  · rw [he] at h3
    omega
  · have hback := (h.tracks.claimed_iff x.1.toNat).2 (by omega)
    have h0 := (h.tracks.claimed_iff g.front).1 (hgt.trans hback)
    obtain ⟨t, ht, hway, y, hy, hp⟩ := h.exists_push hk h0 hr
    refine .inr ⟨t, ht, hway, y, hy, UInt64.lt_iff_toNat_lt.2 (hp ▸ hgt), ?_⟩
    rw [h.mem_taken_iff, hp]
    exact Nat.lt_irrefl _

theorem accepted_of_claimed {t : Client α} (ht : ¬ HalfWay t) : claimed? t = accepted? t := by
  rcases t with ⟨_ | _, (_ | _ | _ | ⟨w, p⟩ | p) | d⟩ | ⟨_ | _, (w | p) | y⟩ <;>
    simp_all [HalfWay, claimed?, accepted?, Thread.isRunning]

theorem delivered_of_taken {t : Client α} (ht : ¬ HalfWay t) :
    taken? t = (delivered? t).map Prod.fst := by
  rcases t with ⟨c, e | (_ | _ | _ | p | ⟨p, v⟩)⟩ | ⟨c, (w | p) | (_ | y)⟩ <;>
    simp_all [HalfWay, taken?, delivered?, Thread.isRunning]

theorem Seated.length_taken (h : Seated l.state n g (Crew.total tally l)) :
    (l.threads.filterMap taken?).length = g.front := by
  have hle := h.tracks.front_le
  have hshort := h.tracks.short
  have hnodup : ((l.threads.filterMap taken?).map UInt64.toNat).Nodup :=
    h.taken_nodup.map fun a b => UInt64.toNat_inj.1
  have hperm : ((l.threads.filterMap taken?).map UInt64.toNat).Perm (List.range g.front) := by
    refine (List.perm_ext_iff_of_nodup hnodup List.nodup_range).2 fun p => ?_
    rw [List.mem_map, List.mem_range]
    constructor
    · rintro ⟨pos, hpos, rfl⟩
      exact (h.mem_taken_iff pos).1 hpos
    · intro hp
      have hpos := toNat_ofNat (by omega : p < 2 ^ 64)
      exact ⟨.ofNat p, (h.mem_taken_iff _).2 (by rwa [hpos]), hpos⟩
  simpa using hperm.length_eq

theorem Seated.full (h : Seated l.state n g (Crew.total tally l)) {q : Nat}
    (hq : g.values.length = q + n) (hrel : g.stage q ≠ .released) : Full n l := by
  have hclaims : (l.threads.filterMap claimed?).length = q + n := by
    rw [← claims_eq, h.claims, hq]
  have h2 := h.tracks.shaped.two_le
  have hfront : q ≤ g.front := by
    by_contra hlt
    have hold := h.tracks.reused (g.front + n) (by omega) (by omega)
    rw [Nat.add_sub_cancel] at hold
    have := (h.tracks.taken_iff g.front).2 (by rw [hold]; decide)
    omega
  refine ⟨q, hclaims, ?_, fun hway => ?_⟩
  · by_cases h3 : 3 < (g.stage q).rank
    · exact .inl (h.exists_pop h3 hrel)
    · refine .inr fun x _ hle hmem => ?_
      have := (h.mem_taken_iff x.1).1 hmem
      have := mt (h.tracks.taken_iff q).1 h3
      omega
  · have he : g.front = q := by
      refine Nat.le_antisymm (Nat.not_lt.1 fun hlt => ?_) hfront
      obtain ⟨t, ht, hhalf, -⟩ := h.exists_pop ((h.tracks.taken_iff q).1 hlt) hrel
      exact hway t ht hhalf
    have hacc : l.threads.filterMap claimed? = l.threads.filterMap accepted? :=
      List.filterMap_congr fun t ht => accepted_of_claimed (hway t ht)
    have hdel : l.threads.filterMap taken? = (l.threads.filterMap delivered?).map Prod.fst := by
      rw [List.map_filterMap]
      exact List.filterMap_congr fun t ht => delivered_of_taken (hway t ht)
    have hlen := h.length_taken
    rw [hdel, List.length_map] at hlen
    rw [← hacc, hclaims, hlen, he]

end Moments

section Runs

variable {capacity : UInt64} {slotSize : Option UInt64} {r s : Ring α}
  {log older recent : List (Crew.Entry (Ring α) (Call α) (Point α) (Reply α))}
  {j k : Party α}
  {before after : List (Client α)} {c : Call α} {p : Point α}
  {a : Move (Ring α) (Point α) (Reply α)}

theorem Push.behind_of_error {e : Push α} {t : Ring α} {w : α}
    (ha : .done t (.error w) ∈ e.moves s) : ∃ v pos x, e = .inspect v pos ∧
      s.slot? pos = some x ∧ turn x.tag pos = .behind := by
  cases e with
  | look v => simp [moves] at ha
  | inspect v pos =>
    simp only [moves] at ha
    split at ha
    · simp at ha
    · rename_i x hx
      split at ha
      · simp at ha
      · exact ⟨v, pos, x, rfl, hx, ‹_›⟩
      · simp at ha
  | claim v pos =>
    simp only [moves] at ha
    split at ha <;> simp at ha
  | write v pos => simp [moves] at ha
  | publish pos => simp [moves] at ha

theorem exhausted_of_miss (hr : Ring.new capacity slotSize = .ok r)
    (h : Crew.Run calls (fun _ _ => True) ⟨r, []⟩ log ⟨s, before ++ .running c p :: after⟩)
    (hb : Crew.total tally ⟨s, before ++ .running c p :: after⟩ none < 2 ^ 63)
    (ha : a ∈ p.moves s) (hmiss : (a.land c).2 = .finished c (.popped none)) :
    Exhausted ⟨s, before ++ .running c p :: after⟩ := by
  obtain ⟨g, hi, hk⟩ := run_seated hr h hb
  have ht := hi.tracks
  rw [Crew.total_split] at ht
  have hkp := hk (.running c p) (by simp)
  refine hi.exhausted hk ?_
  rcases p with e | d
  · obtain ⟨b, hmem, rfl⟩ := List.mem_map.1 ha
    cases b <;> simp [Move.embed, Move.land] at hmiss
  · obtain ⟨b, hmem, rfl⟩ := List.mem_map.1 ha
    rcases c with v | _
    · exact hkp.elim
    · rw [tally_pop] at ht
      obtain ⟨_, hs, -⟩ := Pop.step ht hkp hmem
      cases hs with
      | miss h3 => exact h3
      | seek | claim | read | release => simp [Move.embed, Move.land] at hmiss

theorem full_of_refusal (hr : Ring.new capacity slotSize = .ok r)
    (h : Crew.Run calls (fun _ _ => True) ⟨r, []⟩ log ⟨s, before ++ .running c p :: after⟩)
    (hb : Crew.total tally ⟨s, before ++ .running c p :: after⟩ none + capacity.toNat < 2 ^ 63)
    {w : α} (ha : a ∈ p.moves s) (hfull : (a.land c).2 = .finished c (.pushed (.error w))) :
    Full capacity.toNat ⟨s, before ++ .running c p :: after⟩ := by
  obtain ⟨g, hi, hk⟩ := run_seated hr h (by omega)
  have ht := hi.tracks
  rw [Crew.total_split] at ht
  have hkp := hk (.running c p) (by simp)
  rcases p with e | d
  · obtain ⟨b, hmem, rfl⟩ := List.mem_map.1 ha
    rcases c with v | _
    · rcases b with _ | ⟨t, y | y⟩ <;> simp [Move.embed, Move.land] at hfull
      obtain ⟨v', pos, x, rfl, hx, hturn⟩ := Push.behind_of_error hmem
      obtain ⟨hq, hrel⟩ := ht.full_of_behind (by rw [← hi.claims]; omega) hx hturn hkp.2
      exact hi.full hq hrel
    · exact hkp.elim
  · obtain ⟨b, hmem, rfl⟩ := List.mem_map.1 ha
    cases b <;> simp [Move.embed, Move.land] at hfull

theorem claimed?_land (ha : a ∈ p.moves s) {x : UInt64 × α}
    (hx : claimed? (.running c p) = some x) : claimed? (a.land c).2 = some x := by
  rcases c with v | _ <;> rcases p with (_ | _ | _ | ⟨w, pos⟩ | pos) | d <;>
    simp [claimed?] at hx <;> obtain ⟨b, hb, rfl⟩ := List.mem_map.1 ha
  · obtain rfl : b = _ := by simpa [Push.moves] using hb
    exact congrArg some hx
  · obtain rfl : b = _ := by simpa [Push.moves] using hb
    exact congrArg some hx

theorem run_judged (hr : Ring.new capacity slotSize = .ok r)
    (hj : Crew.Run calls (fun _ _ => True) ⟨r, []⟩ older j)
    (hk : Crew.Run calls (fun _ _ => True) (j.start calls c) recent k)
    (hb : (k.threads.filterMap claimed?).length + capacity.toNat < 2 ^ 63) :
    (k.threads[j.threads.length]? = some (.finished c (.popped none)) → ∃ l,
      Crew.During calls j.threads.length (j.start calls c) recent k l ∧ Exhausted l) ∧
    ∀ w, k.threads[j.threads.length]? = some (.finished c (.pushed (.error w))) → ∃ l,
      Crew.During calls j.threads.length (j.start calls c) recent k l ∧ Full capacity.toNat l := by
  have hstart : ∀ d x, (j.start calls c).threads[j.threads.length]? ≠ some (.finished d x) := by
    simp [Crew.start]
  have hj' := hj.start c trivial
  have hfew {l : Party α}
      (hl : Crew.During calls j.threads.length (j.start calls c) recent k l) :
      Crew.total tally l none + capacity.toNat < 2 ^ 63 := by
    rw [claims_eq]
    obtain ⟨⟨past, rest, -, hrest, -⟩, -⟩ := hl
    have := (hrest.sublist_filterMap claimed? fun s c p a x ha => claimed?_land ha).length_le
    omega
  constructor
  · intro ht
    obtain ⟨s, before, after, p, a, past, hpast, ha, hmiss, hl⟩ := hk.last_step hstart ht
    exact ⟨_, hl, exhausted_of_miss hr (hj'.append hpast)
      ((Nat.le_add_right _ _).trans_lt (hfew hl)) ha hmiss⟩
  · intro w ht
    obtain ⟨s, before, after, p, a, past, hpast, ha, hfull, hl⟩ := hk.last_step hstart ht
    exact ⟨_, hl, full_of_refusal hr (hj'.append hpast) (hfew hl) ha hfull⟩

theorem taken?_land (ha : a ∈ p.moves s) {x : UInt64} (hx : taken? (.running c p) = some x) :
    taken? (a.land c).2 = some x := by
  rcases p with e | (_ | _ | _ | pos | ⟨pos, v⟩) <;> simp [taken?] at hx <;>
    obtain ⟨b, hb, rfl⟩ := List.mem_map.1 ha
  · simp only [Pop.moves] at hb
    split at hb
    · simp at hb
    · obtain rfl : b = _ := by simpa using hb
      exact congrArg some hx
  · obtain rfl : b = _ := by simpa [Pop.moves] using hb
    exact congrArg some hx

end Runs

theorem exists_call_of_play {X : Type} {r : Ring α} {c : Call α} {a b : List (Crew.Cue (Call α))}
    {f : Party α → Party α → X}
    {x : X} (h : ((Crew.play calls (fun _ _ => true) a [] ⟨r, []⟩).bind fun y =>
      (Crew.play calls (fun _ _ => true) b [] (y.2.start calls c)).map fun z => f y.2 z.2) =
        some x) :
    ∃ older j recent k, Crew.Run calls (fun _ _ => True) ⟨r, []⟩ older j ∧
      Crew.Run calls (fun _ _ => True) (j.start calls c) recent k ∧ f j k = x := by
  obtain ⟨⟨older, j⟩, hp, hx⟩ := Option.bind_eq_some_iff.1 h
  obtain ⟨recent, k, hk, hx⟩ := Crew.exists_run_of_play (fun _ _ _ => trivial) hx
  exact ⟨older, j, recent, k, Crew.run_play (fun _ _ _ => trivial) .refl hp, hk, hx⟩

/-- One push claims a position and stands still; another goes from start to end. -/
def shadow : List (Crew.Cue (Call Nat)) :=
  .start (.push 7) :: List.replicate 3 (.move 0 0) ++
    .start (.push 8) :: List.replicate 5 (.move 1 0)

/-- The ring is filled; one pop takes a value and stands still, another goes from start to end. -/
def stall : List (Crew.Cue (Call Nat)) :=
  .start (.push 7) :: List.replicate 5 (.move 0 0) ++
    .start (.push 8) :: List.replicate 5 (.move 1 0) ++
      .start .pop :: List.replicate 3 (.move 2 0) ++ .start .pop :: List.replicate 5 (.move 3 0)

theorem run_judged_halfWay :
    (∃ (j : Party Nat) (recent : _) (k l : Party Nat),
      k.threads[2]? = some (.finished .pop (.popped none)) ∧
      Crew.During calls 2 (j.start calls .pop) recent k l ∧ Exhausted l) ∧
    ∃ (j : Party Nat) (recent : _) (k l : Party Nat),
      k.threads[4]? = some (.finished (.push 9) (.pushed (.error 9))) ∧
      Crew.During calls 4 (j.start calls (.push 9)) recent k l ∧ Full 2 l := by
  have hn : Ring.new 2 none = .ok pair := by rfl
  constructor
  · obtain ⟨older, j, recent, k, hj, hk, hx⟩ := exists_call_of_play (a := shadow) (c := .pop)
      (b := List.replicate 2 (.move 2 0)) (r := pair)
      (f := fun j k => (j.threads.length, k.threads[2]?, (k.threads.filterMap claimed?).length))
      (x := (2, some (.finished .pop (.popped none)), 2)) (by rfl)
    simp only [Prod.mk.injEq] at hx
    have := (run_judged hn hj hk (by rw [hx.2.2]; decide)).1
    rw [hx.1] at this
    obtain ⟨l, hl, he⟩ := this hx.2.1
    exact ⟨j, recent, k, l, hx.2.1, hl, he⟩
  · obtain ⟨older, j, recent, k, hj, hk, hx⟩ := exists_call_of_play (a := stall) (c := .push 9)
      (b := List.replicate 2 (.move 4 0)) (r := pair)
      (f := fun j k => (j.threads.length, k.threads[4]?, (k.threads.filterMap claimed?).length))
      (x := (4, some (.finished (.push 9) (.pushed (.error 9))), 2)) (by rfl)
    simp only [Prod.mk.injEq] at hx
    have := (run_judged hn hj hk (by rw [hx.2.2]; decide)).2
    rw [hx.1] at this
    obtain ⟨l, hl, hf⟩ := this 9 hx.2.1
    exact ⟨j, recent, k, l, hx.2.1, hl, hf⟩

theorem misjudged :
    (∃ older j recent k, Crew.Run calls (fun _ _ => True) ⟨pair, []⟩ older j ∧
      Crew.Run calls (fun _ _ => True) (j.start calls .pop) recent k ∧
      k.threads[j.threads.length]? = some (.finished .pop (.popped none)) ∧
      ∀ l, Crew.During calls j.threads.length (j.start calls .pop) recent k l →
        ∃ x ∈ l.threads.filterMap accepted?, x.1 ∉ l.threads.filterMap taken?) ∧
    ∃ older j recent k, Crew.Run calls (fun _ _ => True) ⟨pair, []⟩ older j ∧
      Crew.Run calls (fun _ _ => True) (j.start calls (.push 9)) recent k ∧
      k.threads[j.threads.length]? = some (.finished (.push 9) (.pushed (.error 9))) ∧
      ∀ l, Crew.During calls j.threads.length (j.start calls (.push 9)) recent k l →
        (l.threads.filterMap accepted?).length < (l.threads.filterMap delivered?).length + 2 := by
  constructor
  · obtain ⟨older, j, recent, k, hj, hk, hx⟩ := exists_call_of_play (a := shadow) (c := .pop)
      (b := List.replicate 2 (.move 2 0)) (r := pair)
      (f := fun j k => (k.threads[j.threads.length]?,
        (j.start calls .pop).threads.filterMap accepted?, k.threads.filterMap taken?))
      (x := (some (.finished .pop (.popped none)), [(1, 8)], [])) (by rfl)
    simp only [Prod.mk.injEq] at hx
    obtain ⟨hmiss, hacc, htaken⟩ := hx
    refine ⟨older, j, recent, k, hj, hk, hmiss, fun l hl => ⟨(1, 8), ?_, fun hmem => ?_⟩⟩
    · obtain ⟨⟨past, rest, hpast, -, -⟩, -⟩ := hl
      refine (hpast.sublist_filterMap accepted? fun s c p a x _ hx => nomatch hx).subset ?_
      rw [hacc]
      exact List.mem_singleton_self _
    · obtain ⟨⟨past, rest, -, hrest, -⟩, -⟩ := hl
      have := (hrest.sublist_filterMap taken? fun s c p a x ha => taken?_land ha).subset hmem
      rw [htaken] at this
      exact absurd this List.not_mem_nil
  · obtain ⟨older, j, recent, k, hj, hk, hx⟩ := exists_call_of_play (a := stall) (c := .push 9)
      (b := List.replicate 2 (.move 4 0)) (r := pair)
      (f := fun j k => (k.threads[j.threads.length]?, (k.threads.filterMap accepted?).length,
        ((j.start calls (.push 9)).threads.filterMap delivered?).length))
      (x := (some (.finished (.push 9) (.pushed (.error 9))), 2, 1)) (by rfl)
    simp only [Prod.mk.injEq] at hx
    obtain ⟨hfull, hacc, hdel⟩ := hx
    refine ⟨older, j, recent, k, hj, hk, hfull, fun l hl => ?_⟩
    obtain ⟨⟨past, rest, hpast, hrest, -⟩, -⟩ := hl
    have hle := (hrest.sublist_filterMap accepted? fun s c p a x _ hx => nomatch hx).length_le
    have hge := (hpast.sublist_filterMap delivered? fun s c p a x _ hx => nomatch hx).length_le
    omega

end Ring

end WorkStealing
