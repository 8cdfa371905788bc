import WorkStealing.Proofs.Blocking.Closing
import WorkStealing.Proofs.Blocking.Overtaking

namespace WorkStealing.Blocking

open Queue (Part Staged Stored)

variable {Q α E D : Type}

def dutiful (k : Crew (Blocking Q) (Call α) (Point α E D) (Reply α)) : Call α → Bool
  | .enqueue _ => k.state.closed || k.threads.all fun t => !isClose t
  | .close => k.state.closed || k.threads.all fun t => producing t == 0
  | .dequeue | .tryDequeue => true

theorem dutiful_of (k : Crew (Blocking Q) (Call α) (Point α E D) (Reply α)) (c : Call α)
    (h : dutiful k c) : Dutiful k c := by
  cases c with
  | enqueue v => exact (Bool.or_eq_true_iff.1 h).imp_right fun h => by simpa using h
  | close => exact (Bool.or_eq_true_iff.1 h).imp_right fun h => by simpa using h
  | dequeue => trivial
  | tryDequeue => trivial

variable [Queue Q α E D]

/-- A pop has come back with nothing although the flag was up before it looked. -/
structure Exhausted (e : Crew.Entry (Blocking Q) (Call α) (Point α E D) (Reply α)) : Prop where
  closed : e.before.closed = true
  missed : (∃ d t, e.point = .dequeue (.drain d) ∧ e.move = .done t (.popped (.error .closed))) ∨
    (∃ d t, e.point = .dequeue (.sleep (.recheck (.last d))) ∧
      e.move = .go t (.dequeue (.sleep (.retract (.error .closed))))) ∨
    ∃ d t, e.point = .tryDequeue (.pop d) ∧ e.move = .go t (.tryDequeue .verdict)

def Dismissed : Caller α E D → Prop
  | .running .dequeue (.dequeue (.sleep (.retract (.error _)))) => True
  | .finished .dequeue (.popped (.error _)) => True
  | _ => False

theorem spins_not_dismissed (n : Nat) :
    ¬ Dismissed (.running .dequeue (.dequeue (Dequeue.spins Q n)) : Caller α E D) := by
  cases n <;> exact False.elim

section Verdict

variable {spins : Nat} {q : Blocking Q} {c : Call α} {p : Point α E D}
  {a : Move (Blocking Q) (Point α E D) (Reply α)}

theorem dismissed_land {i : Nat} (ha : a ∈ p.moves spins q) (hf : Frank (.running c p))
    (ht : Told (.running c p) → q.closed = true) (hd : Dismissed (a.land c).2) :
    Dismissed (.running c p) ∨ Exhausted ⟨i, c, q, p, a⟩ := by
  rcases c with v | _ | _ | _ <;> rcases p with p | p | p | p <;> try exact hf.elim
  case dequeue.dequeue =>
    obtain ⟨b, hb, rfl⟩ := List.mem_map.1 ha
    cases Dequeue.step hb with
    | exhaust => exact .inr ⟨ht trivial, .inl ⟨_, _, rfl, rfl⟩⟩
    | @leave s t r h =>
      cases h with
      | retract =>
        cases r with
        | error e => exact .inl trivial
        | ok v => exact hd.elim
    | sleep h =>
      cases h with
      | find h =>
        cases h with
        | exhaust => exact .inr ⟨ht trivial, .inr (.inl ⟨_, _, rfl, rfl⟩)⟩
        | find | refind => exact hd.elim
      | declare | recheck | miss | wait | waken => exact hd.elim
    | miss h hx =>
      subst hx
      exact absurd hd (spins_not_dismissed _)
    | wake h hx =>
      subst hx
      exact absurd hd (spins_not_dismissed _)
    | look | find | up | down | relook | refind => exact hd.elim
  all_goals
    obtain ⟨b, hb, rfl⟩ := List.mem_map.1 ha
    cases b <;> exact hd.elim

end Verdict

variable {spins : Nat} {log : Log Q α} {k : Crew (Blocking Q) (Call α) (Point α E D) (Reply α)}

theorem exhausted_of_dismissed {b : Q}
    (h : Crew.Run (calls spins) Dutiful ⟨⟨b, {}, false⟩, []⟩ log k) :
    ∀ t ∈ k.threads, Dismissed t → ∃ e ∈ log, Exhausted e := by
  intro t ht
  obtain ⟨i, hi⟩ := List.mem_iff_getElem?.1 ht
  refine h.thread (fun _ log t => Dismissed t → ∃ e ∈ log, Exhausted e) ?_ ?_ ?_ ?_ hi
  · simp
  · intro log k c _ _ hd
    cases c with
    | dequeue => exact absurd hd (spins_not_dismissed spins)
    | enqueue v => exact hd.elim
    | tryDequeue => exact hd.elim
    | close => exact hd.elim
  · exact fun i t e log _ ih hd => (ih hd).imp fun _ => .imp_left (List.mem_cons_of_mem e)
  · intro log s before after c p a hr ha ih hd
    have hshut := run_shut hr
    have hself : Thread.running c p ∈ before ++ .running c p :: after := by simp
    rcases dismissed_land ha (hshut.frank _ hself) (hshut.told _ hself) hd with hd | hx
    · exact (ih hd).imp fun _ => .imp_left (List.mem_cons_of_mem _)
    · exact ⟨_, List.mem_cons_self, hx⟩

section Dry

theorem Exhausted.none {e : Crew.Entry (Blocking Q) (Call α) (Point α E D) (Reply α)}
    (h : Exhausted e) (ha : e.move ∈ e.point.moves spins e.before) :
    ∃ d b, .done b none ∈ Queue.pop.moves e.before.base d ∧
      (e.point = .dequeue (.drain d) ∨ e.point = .dequeue (.sleep (.recheck (.last d))) ∨
        e.point = .tryDequeue (.pop d)) := by
  rcases h.missed with ⟨d, t, hp, hm⟩ | ⟨d, t, hp, hm⟩ | ⟨d, t, hp, hm⟩ <;> rw [hp, hm] at ha <;>
    obtain ⟨c, hc, he⟩ := List.mem_map.1 ha <;> rcases c with ⟨u, p⟩ | ⟨u, r⟩ <;>
    simp [Move.embed] at he <;> obtain ⟨-, rfl⟩ := he
  · cases Dequeue.step hc with
    | exhaust hb => exact ⟨d, _, hb, .inl hp⟩
  · cases Dequeue.step hc with
    | sleep h =>
      cases h with
      | find h =>
        cases h with
        | exhaust hb => exact ⟨d, _, hb, .inr (.inl hp)⟩
    | wake h => cases h
  · cases TryDequeue.step hc with
    | miss hb => exact ⟨d, _, hb, .inr (.inr hp)⟩

variable [Staged Q α E D] {lucid turns : Prop} {n : Nat} {f : α → Bool} {g₀ g : Ghost α}
  {older recent : Log Q α} {j : Crew (Blocking Q) (Call α) (Point α E D) (Reply α)}

theorem Kept.front_of_exhausted {e : Crew.Entry (Blocking Q) (Call α) (Point α E D) (Reply α)}
    {m : Multiset (Caller α E D)}
    (hk : Kept lucid n f g₀ turns log g e.before (.running e.call e.point ::ₘ m))
    (hknows : Knows Q n g (.running e.call e.point))
    (hout : ∀ t ∈ Thread.running e.call e.point ::ₘ m, Outside t)
    (ha : e.move ∈ e.point.moves spins e.before) (hx : Exhausted e) :
    g.front = g.values.length := by
  obtain ⟨d, b, hb, hpoint⟩ := hx.none ha
  obtain ⟨hpart, hpop⟩ : part Q f (.running e.call e.point) = Queue.popPart Q d ∧
      Staged.Popping Q g d := by
    obtain ⟨i, c, q, p, a⟩ := e
    obtain rfl | rfl | rfl := hpoint <;> cases c <;> first | exact hknows.elim | exact ⟨rfl, hknows⟩
  have hs := hk.balanced.stored
  rw [Multiset.map_cons, Multiset.sum_cons, hpart] at hs
  obtain ⟨h, hstep, -, -, -⟩ := hs.pop hpop hb
  cases hstep with
  | none free blind =>
    have halone := alone_of_outside (Q := Q) (f := f) hout
    have hclear := (Staged.orderly hk.balanced.stored.tracks).clear (fun p => (halone p).1)
      fun p => (halone p).2
    exact hk.front_eq hout (blind hclear)

theorem claim_eq_zero {t : Caller α E D} (hr : ∀ v p, t ≠ .running (.enqueue v) p)
    (hf : ∀ v r, t ≠ .finished (.enqueue v) r) : part Q f t .claim = 0 :=
  part_eq_zero (fun _ => rfl) (fun _ => rfl) (fun v _ => hr v _) fun v _ => hf v _

theorem claim_land {c : Call α} {p : Point α E D} {q : Blocking Q}
    {a : Move (Blocking Q) (Point α E D) (Reply α)} (ha : a ∈ p.moves spins q)
    (hc : q.closed = true) (ho : Outside (.running c p)) :
    part Q f (a.land c).2 .claim = part Q f (.running c p) .claim := by
  cases c with
  | enqueue v =>
    obtain ⟨w, hw⟩ := Point.rejected_land ha hc ho
    rw [hw]
    rcases p with (w | e | m) | p | p | p <;> first | exact ho.elim | rfl
  | dequeue | tryDequeue | close =>
    rw [claim_eq_zero (t := .running _ p) (by simp) (by simp)]
    cases a <;> exact claim_eq_zero (by simp [Move.land]) (by simp [Move.land])

theorem claim_enter (g : Ghost α) (c : Call α) :
    part Q f (.running c (c.enter Q spins)) .claim = 0 := congrFun (enter_part g c) .claim

theorem sum_claim_eq (k : Crew (Blocking Q) (Call α) (Point α E D) (Reply α)) :
    ((k.threads : Multiset (Caller α E D)).map (part Q f)).sum .claim =
      Crew.total (fun t => part Q f t .claim) k := by
  rw [sum_apply]
  rfl

theorem Shut.claims (hs : Shut j) (hc : j.state.closed = true)
    (h : Crew.Run (calls spins) Dutiful j recent k) :
    Crew.total (fun t => part Q f t .claim) k = Crew.total (fun t => part Q f t .claim) j := by
  induction h with
  | refl => rfl
  | start _ c _ ih =>
    rw [Crew.total_start]
    change part Q f (.running c (c.enter Q spins)) .claim + _ = _
    rw [claim_enter (g := .start), Nat.zero_add, ih]
  | move hr ha ih =>
    have hc := closed_of_run hc hr
    rw [← ih, Crew.total_split, Crew.total_split,
      claim_land ha hc ((hs.run hr).outside hc _ (by simp))]
    rfl

theorem Kept.dry_run (hk : Kept False n f .start False older g j.state j.threads)
    (hknows : ∀ t ∈ j.threads, Knows Q n g t) (hs : Shut j) (hc : j.state.closed = true)
    (hf : g.front = g.values.length) (h : Crew.Run (calls spins) Dutiful j recent k)
    (hx : Exact (recent ++ older)) (hwrap : Staged.Wraps Q → offers k < 2 ^ 63) :
    ∃ h, Kept False n f .start False (recent ++ older) h k.state k.threads ∧
      (∀ t ∈ k.threads, Knows Q n h t) ∧ h.front = g.front ∧ h.front = h.values.length := by
  obtain ⟨h', hle, hk', hknows'⟩ := hk.run hknows False.elim h hx False.elim fun hw => by
    simpa [Ghost.start] using hwrap hw
  have hsize := hk.balanced.stored.size
  have hsize' := hk'.balanced.stored.size
  have hclaims := hs.claims (f := f) hc h
  rw [← sum_claim_eq, ← sum_claim_eq] at hclaims
  -- no place has been claimed since, so the values are those that there were
  have hfront := hle.front
  have hback := (Staged.orderly hk'.balanced.stored.tracks).front_le
  exact ⟨h', hk', hknows', by omega, by omega⟩

variable {b : Q}

theorem coe_split {X : Type} (before after : List X) (x : X) :
    (↑(before ++ x :: after) : Multiset X) = x ::ₘ ↑(before ++ after) :=
  Multiset.coe_eq_coe.2 List.perm_middle

theorem run_dry (hb : Staged.Tracks n b (Ghost.start : Ghost α) 0)
    (h : Crew.Run (calls spins) Dutiful ⟨⟨b, {}, false⟩, []⟩ log k) (hx : Exact log)
    (hwrap : Staged.Wraps Q → offers k < 2 ^ 63) (f : α → Bool)
    {e : Crew.Entry (Blocking Q) (Call α) (Point α E D) (Reply α)} (he : e ∈ log)
    (hexh : Exhausted e) : k.state.closed = true ∧
      ∃ g, Kept False n f .start False log g k.state k.threads ∧
        (∀ t ∈ k.threads, Knows Q n g t) ∧ g.front = g.values.length := by
  -- the run up to the step that found nothing, and the rest of it
  obtain ⟨recent, older, rfl⟩ := List.append_of_mem he
  obtain ⟨before, after, hj, -, ha, hrest⟩ := h.since
  have hlog : recent ++ [e] ++ older = recent ++ e :: older := by simp
  have hfew : Staged.Wraps Q → (Ghost.start : Ghost α).values.length +
      offers (⟨e.before, before ++ .running e.call e.point :: after⟩ :
        Crew (Blocking Q) (Call α) (Point α E D) (Reply α)) < 2 ^ 63 := fun hw => by
    rw [Ghost.start, List.length_nil, Nat.zero_add]
    exact (offers_le hrest).trans_lt (hwrap hw)
  obtain ⟨g, hk, hknows⟩ := run_kept False False f hb False.elim hj
    (hx.suffix ⟨recent ++ [e], hlog⟩) False.elim hfew
  have hshut := run_shut hj
  have hfront : g.front = g.values.length := by
    refine Kept.front_of_exhausted (coe_split .. ▸ hk) (hknows _ (by simp)) ?_ ha hexh
    rw [← coe_split]
    simpa using hshut.outside hexh.closed
  obtain ⟨g', hk', hknows', -, hf'⟩ := hk.dry_run hknows hshut hexh.closed hfront hrest
    (hlog ▸ hx) hwrap
  exact ⟨closed_of_run hexh.closed hrest, g', hlog ▸ hk', hknows', hf'⟩

theorem run_accounted (hb : Staged.Tracks n b (Ghost.start : Ghost α) 0)
    (h : Crew.Run (calls spins) Dutiful ⟨⟨b, {}, false⟩, []⟩ log k) (hx : Exact log)
    (hwrap : Staged.Wraps Q → offers k < 2 ^ 63)
    {e : Crew.Entry (Blocking Q) (Call α) (Point α E D) (Reply α)} (he : e ∈ log)
    (hexh : Exhausted e) : (accepted k).Perm (returned k ++ inHand k) := by
  refine perm_of_countP fun f => ?_
  obtain ⟨hc, g, hk, hknows, hf⟩ := run_dry hb h hx hwrap f he hexh
  exact hk.countP_accepted hknows ((run_shut h).outside hc) hf

end Dry

section Late

variable [Staged Q α E D] {n limit spent : Nat} {f : α → Bool} {g : Ghost α} {m : Part → Nat}
  {older recent : Log Q α} {j : Crew (Blocking Q) (Call α) (Point α E D) (Reply α)} {b : Q}

def Dequeue.toll (Q : Type) {α E D : Type} [Queue Q α E D] [Staged Q α E D] (p : Nat) :
    Dequeue α D → Nat
  | .spin left d => Staged.lag Q p d + left * Queue.pace + (1 + Queue.pace)
  | .flag => 1 + Queue.pace
  | .drain d => Staged.lag Q p d
  | .sleep _ => 0

def Dequeue.Seeking (Q : Type) {α E D : Type} [Queue Q α E D] [Staged Q α E D] :
    Dequeue α D → Prop
  | .spin _ d | .drain d => Staged.takes Q d = false
  | .flag => True
  | .sleep _ => False

def Late (Q : Type) {α E D : Type} [Queue Q α E D] [Staged Q α E D] (p limit spent : Nat) :
    Caller α E D → Prop
  | .running .dequeue (.dequeue x) => x.Seeking Q ∧ spent + x.toll Q p ≤ limit
  | .running .dequeue _ => False
  | .finished .dequeue r => r = .popped (.error .closed) ∧ spent ≤ limit
  | _ => True

theorem spins_late (g : Ghost α) (p left : Nat) : (Dequeue.spins Q left : Dequeue α D).Seeking Q ∧
    (Dequeue.spins Q left : Dequeue α D).toll Q p ≤ left * Queue.pace + (1 + Queue.pace) := by
  cases left with
  | zero => exact ⟨trivial, by simp [Dequeue.spins, Dequeue.toll]⟩
  | succ left =>
    refine ⟨(Staged.pop_enter g).2.2, ?_⟩
    have := Staged.lag_enter (Q := Q) p
    simp only [Dequeue.spins, Dequeue.toll, Nat.succ_mul]
    omega

def allowance (spins : Nat) : Nat := spins * Queue.pace + (1 + Queue.pace)

theorem enter_late (g : Ghost α) {p : Nat} (c : Call α) :
    Late Q p (allowance spins) 0 (.running c (c.enter Q spins)) := by
  cases c with
  | dequeue => exact ⟨(spins_late g p spins).1, (Nat.zero_add _).symm ▸ (spins_late g p spins).2⟩
  | enqueue v => trivial
  | tryDequeue => trivial
  | close => trivial

theorem Dequeue.late_step {x : Dequeue α D} {q : Blocking Q}
    {a : Move (Blocking Q) (Dequeue α D) (Except PopError α)}
    (ht : Staged.Tracks n q.base g fun y => (x.part Q f + m) (.hold y)) (hk : x.Knows Q g)
    (hc : q.closed = true) (hf : g.front = g.values.length) (ha : a ∈ x.moves spins q)
    (hs : x.Seeking Q) :
    (∃ t y, a = .go t y ∧ y.Seeking Q ∧ y.toll Q g.front + 1 ≤ x.toll Q g.front) ∨
      ∃ t, a = .done t (.error .closed) ∧ 1 ≤ x.toll Q g.front := by
  cases x with
  | spin left d =>
    obtain ⟨c, hc, rfl⟩ := List.mem_map.1 ha
    cases Staged.dry_step ht hk hf hs hc with
    | go free less =>
      refine .inl ⟨_, _, rfl, free, ?_⟩
      simp only [toll]
      omega
    | none pos =>
      refine .inl ⟨_, _, rfl, (spins_late g g.front left).1, ?_⟩
      have := (spins_late (Q := Q) g g.front left).2
      change toll Q g.front (Dequeue.spins Q left) + 1 ≤
        Staged.lag Q g.front d + left * Queue.pace + (1 + Queue.pace)
      omega
  | flag =>
    simp only [moves, hc, if_true] at ha
    obtain rfl := List.mem_singleton.1 ha
    refine .inl ⟨_, _, rfl, (Staged.pop_enter g).2.2, ?_⟩
    have := Staged.lag_enter (Q := Q) g.front
    simp only [toll]
    omega
  | drain d =>
    obtain ⟨c, hc, rfl⟩ := List.mem_map.1 ha
    cases Staged.dry_step ht hk hf hs hc with
    | go free less => exact .inl ⟨_, _, rfl, free, less⟩
    | none pos => exact .inr ⟨_, rfl, pos⟩
  | sleep p => exact hs.elim

theorem late_land {c : Call α} {p : Point α E D} {q : Blocking Q}
    {a : Move (Blocking Q) (Point α E D) (Reply α)}
    (ht : Staged.Tracks n q.base g fun y => (part Q f (.running c p) + m) (.hold y))
    (hk : Knows Q n g (.running c p)) (hc : q.closed = true) (hf : g.front = g.values.length)
    (ha : a ∈ p.moves spins q) (hl : Late Q g.front limit spent (.running c p)) :
    Late Q g.front limit (spent + 1) (a.land c).2 := by
  cases c with
  | dequeue =>
    cases p with
    | dequeue x =>
      obtain ⟨hs, hle⟩ := hl
      obtain ⟨b, hb, rfl⟩ := List.mem_map.1 ha
      rcases Dequeue.late_step ht hk hc hf hb hs with ⟨t, y, rfl, hs', hlt⟩ | ⟨t, rfl, hpos⟩
      · exact ⟨hs', by omega⟩
      · exact ⟨rfl, by omega⟩
    | enqueue p => exact hl.elim
    | tryDequeue p => exact hl.elim
    | close p => exact hl.elim
  | enqueue v => cases a <;> trivial
  | tryDequeue => cases a <;> trivial
  | close => cases a <;> trivial

theorem Kept.late (hk : Kept False n f .start False older g j.state j.threads)
    (hknows : ∀ t ∈ j.threads, Knows Q n g t) (hs : Shut j) (hc : j.state.closed = true)
    (hf : g.front = g.values.length) (h : Crew.Run (calls spins) Dutiful j recent k)
    (hx : Exact (recent ++ older)) (hwrap : Staged.Wraps Q → offers k < 2 ^ 63) {i : Nat}
    {t : Caller α E D} (hi : j.threads.length ≤ i) (ht : k.threads[i]? = some t) :
    Late Q g.front (allowance spins) (recent.countP fun e => e.thread == i) t := by
  refine h.thread_to (fun i log t => j.threads.length ≤ i →
    Late Q g.front (allowance spins) (log.countP fun e => e.thread == i) t) ?_ ?_ ?_ ?_ ht hi
  · intro i t ht hi
    rw [List.getElem?_eq_none hi] at ht
    exact absurd ht (by simp)
  · intro log l c hr _ _
    have hnone : log.countP (fun e => e.thread == l.threads.length) = 0 := by
      refine List.countP_eq_zero.2 fun e he => ?_
      have := hr.thread_lt e he
      simp
      omega
    rw [hnone]
    exact enter_late g c
  · intro i t e log hne ih hi
    rw [List.countP_cons_of_neg (by simpa using hne)]
    exact ih hi
  · intro log rest s before after c p a hr ha hrest hlog ih hi
    have hx' : Exact (log ++ older) := hx.suffix ⟨rest, by rw [← hlog, List.append_assoc]⟩
    obtain ⟨g', hk', hknows', hfront, hf'⟩ := hk.dry_run hknows hs hc hf hr hx' fun hw =>
      (offers_le hrest).trans_lt (hwrap hw)
    have hstored := hk'.balanced.stored
    rw [coe_split, Multiset.map_cons, Multiset.sum_cons] at hstored
    rw [List.countP_cons_of_pos (by simp), ← hfront]
    exact late_land hstored.tracks (hknows' _ (by simp)) (closed_of_run hc hr) hf' ha
      (hfront ▸ ih hi)

end Late

abbrev toldClosed : Caller α E D := .finished .dequeue (.popped (.error .closed))

/-- What is so after a run of a queue that started as `b` and was closed, if at all, when the last
push had returned. -/
structure Drains (spins : Nat) [Staged Q α E D] (b : Q) (log : Log Q α)
    (k : Crew (Blocking Q) (Call α) (Point α E D) (Reply α)) : Prop where
  never_empty : .finished .dequeue (.popped (.error .empty)) ∉ k.threads
  told : toldClosed ∈ k.threads → k.state.closed = true ∧ (∃ t ∈ k.threads, isClose t = true) ∧
    (accepted k).Perm (returned k ++ inHand k)
  later : ∀ older recent j, Crew.Run (calls spins) Dutiful ⟨⟨b, {}, false⟩, []⟩ older j →
    Crew.Run (calls spins) Dutiful j recent k → recent ++ older = log → toldClosed ∈ j.threads →
    ∀ i, j.threads.length ≤ i →
      (∀ r, k.threads[i]? = some (.finished .dequeue r) → r = .popped (.error .closed)) ∧
      ∀ p, k.threads[i]? = some (.running .dequeue p) → p.moves spins k.state ≠ [] ∧
        recent.countP (fun e => e.thread == i) < allowance spins
  settled : .finished .close .closed ∈ k.threads → Crew.Quiet (calls spins) k →
    (∀ c p, .running c p ∉ k.threads) ∧
      (toldClosed ∈ k.threads → (accepted k).Perm (returned k))

theorem Late.can_move [Staged Q α E D] {n limit spent : Nat} {f : α → Bool} {g₀ g : Ghost α}
    {q : Blocking Q} {mp : Part → Nat} {x : Point α E D}
    (hs : Stored n f g₀ q.base g (part Q f (.running .dequeue x) + mp))
    (hk : Knows Q n g (.running .dequeue x)) (hl : Late Q g.front limit spent (.running .dequeue x)) :
    x.moves spins q ≠ [] ∧ spent < limit := by
  cases x with
  | dequeue x =>
    obtain ⟨hseek, hle⟩ := hl
    refine ⟨fun hnil => ?_, ?_⟩
    · obtain ⟨-, hp, -⟩ := Point.eq_of_moves_eq_nil hs hk hnil
      obtain rfl : x = .sleep (.wait .acquire) := by simpa using hp
      exact hseek
    · have hpos : 0 < x.toll Q g.front := by
        cases x with
        | spin left d => simp only [Dequeue.toll]; omega
        | flag => simp only [Dequeue.toll]; omega
        | drain d => exact Staged.lag_pos g.front hseek
        | sleep p => exact hseek.elim
      omega
  | enqueue p => exact hl.elim
  | tryDequeue p => exact hl.elim
  | close p => exact hl.elim

theorem drains_of_run [Staged Q α E D] {n : Nat} {b : Q}
    (hb : Staged.Tracks n b (Ghost.start : Ghost α) 0)
    (h : Crew.Run (calls spins) Dutiful ⟨⟨b, {}, false⟩, []⟩ log k) (hx : Exact log)
    (hwrap : Staged.Wraps Q → offers k < 2 ^ 63) : Drains spins b log k := by
  have hshut := run_shut h
  have htold : toldClosed ∈ k.threads → k.state.closed = true ∧
      (accepted k).Perm (returned k ++ inHand k) := fun ht => by
    obtain ⟨e, he, hexh⟩ := exhausted_of_dismissed h _ ht trivial
    exact ⟨hshut.told _ ht trivial, run_accounted hb h hx hwrap he hexh⟩
  refine ⟨fun ht => hshut.frank _ ht rfl, fun ht => ?_, ?_, fun hclose hq => ?_⟩
  · obtain ⟨hc, hperm⟩ := htold ht
    exact ⟨hc, hshut.asked hc, hperm⟩
  · rintro older recent j hj hrest rfl ht i hi
    have hfew : Staged.Wraps Q → offers j < 2 ^ 63 := fun hw =>
      (offers_le hrest).trans_lt (hwrap hw)
    have hxj : Exact older := hx.suffix ⟨recent, rfl⟩
    obtain ⟨e, he, hexh⟩ := exhausted_of_dismissed hj _ ht trivial
    obtain ⟨hc, g, hk, hknows, hf⟩ := run_dry hb hj hxj hfew (fun _ => false) he hexh
    have hlate {t} := hk.late hknows (run_shut hj) hc hf hrest hx hwrap (t := t) hi
    refine ⟨fun r hr => (hlate hr).1, fun p hp => ?_⟩
    obtain ⟨g', hk', hknows', hfront, -⟩ :=
      hk.dry_run hknows (run_shut hj) hc hf hrest hx hwrap
    have hmem := List.mem_of_getElem? hp
    obtain ⟨m, hm⟩ := Multiset.exists_cons_of_mem (Multiset.mem_coe.2 hmem)
    have hstored := hk'.balanced.stored
    rw [hm, Multiset.map_cons, Multiset.sum_cons] at hstored
    exact Late.can_move hstored (hknows' _ hmem) (hfront ▸ hlate hp)
  · -- whoever is stuck would be so at an open queue
    have hc := hshut.told _ hclose trivial
    have hidle : ∀ c p, .running c p ∉ k.threads := fun c p ht => by
      obtain ⟨g, hk, hknows⟩ := run_kept False False (fun _ => false) hb False.elim h hx False.elim
        fun hw => by simpa [Ghost.start] using hwrap hw
      exact absurd hc (by simp [(hk.quiet hknows hq ht).2])
    refine ⟨hidle, fun ht => ?_⟩
    have hhand : inHand k = [] := inHand_eq_nil fun t ht => by
      cases t with
      | running c p => exact absurd ht (hidle c p)
      | finished c r => rfl
    simpa [hhand] using (htold ht).2

theorem run_drains {spins : Nat} :
    (∀ capacity slotSize (r : Ring α), Ring.new capacity slotSize = .ok r → ∀ log k,
      Crew.Run (calls spins) Dutiful ⟨⟨r, {}, false⟩, []⟩ log k → Exact log → offers k < 2 ^ 63 →
        Drains spins r log k) ∧
    ∀ log k, Crew.Run (calls spins) Dutiful ⟨⟨({} : Linked α), {}, false⟩, []⟩ log k → Exact log →
      Drains spins {} log k :=
  ⟨fun capacity _ _ hr _ _ h hx hb =>
      drains_of_run (n := capacity.toNat) (Ring.tracks_start hr) h hx fun _ => hb,
    fun _ _ h hx => drains_of_run (n := 0) Linked.tracks_start h hx False.elim⟩

/-- A consumer sleeps, a producer wakes it, and the queue is closed before the consumer looks again.
It gets the value, and the next one is told. -/
def closeEarly (miss push pop told : Nat) : List (Crew.Cue (Call Nat)) :=
  .start .dequeue :: steps 0 miss ++ .start (.enqueue 7) :: steps 1 push ++
    .start .close :: steps 2 3 ++ steps 0 pop ++ .start .dequeue :: steps 3 told

structure Tells (spins : Nat) (b : Q) (ins outs : List α) (log : Log Q α)
    (k : Crew (Blocking Q) (Call α) (Point α E D) (Reply α)) : Prop where
  run : Crew.Run (calls spins) Dutiful ⟨⟨b, {}, false⟩, []⟩ log k
  exact : Exact log
  quiet : Crew.Quiet (calls spins) k
  told : toldClosed ∈ k.threads
  accepted : accepted k = ins
  returned : returned k = outs
  few : offers k < 2 ^ 63

def telling (spins : Nat)
    (x : Log Q α × Crew (Blocking Q) (Call α) (Point α E D) (Reply α)) : List α × List α × Bool :=
  (accepted x.2, returned x.2, decide (Exact x.1) && decide (offers x.2 < 2 ^ 63) &&
    x.2.isQuiet (calls spins) && x.2.threads.any fun t =>
      match t with
      | .finished .dequeue (.popped (.error .closed)) => true
      | _ => false)

theorem tells_of_play (spins : Nat) (b : Q) (script : List (Crew.Cue (Call α))) {ins outs : List α}
    (h : (Crew.play (calls spins) dutiful script [] ⟨⟨b, {}, false⟩, []⟩).map (telling spins) =
      some (ins, outs, true)) : ∃ log k, Tells spins b ins outs log k := by
  obtain ⟨log, k, hrun, hx⟩ := Crew.exists_run_of_play dutiful_of h
  simp only [telling, Prod.mk.injEq, Bool.and_eq_true, decide_eq_true_eq, List.any_eq_true] at hx
  obtain ⟨hins, houts, ⟨⟨hexact, hfew⟩, hquiet⟩, t, ht, htold⟩ := hx
  refine ⟨log, k, hrun, hexact, Crew.isQuiet_iff.1 hquiet, ?_, hins, houts, hfew⟩
  split at htold
  · exact ht
  · exact absurd htold Bool.false_ne_true

theorem run_drains_closeEarly :
    (∃ log k, Tells 0 Ring.pair [7] [7] log k ∧ Drains 0 Ring.pair log k) ∧
      ∃ log k, Tells 0 ({} : Linked Nat) [7] [7] log k ∧ Drains 0 {} log k := by
  obtain ⟨log, k, ht⟩ := tells_of_play 0 Ring.pair (closeEarly 6 9 8 3)
    (by rfl : _ = some ([7], [7], true))
  obtain ⟨log', k', ht'⟩ := tells_of_play 0 ({} : Linked Nat) (closeEarly 5 6 5 2)
    (by rfl : _ = some ([7], [7], true))
  exact ⟨⟨log, k, ht, run_drains.1 2 none Ring.pair (by rfl) log k ht.run ht.exact ht.few⟩,
    log', k', ht', run_drains.2 log' k' ht'.run ht'.exact⟩

end WorkStealing.Blocking
