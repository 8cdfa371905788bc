import WorkStealing.Proofs.Blocking.Account

namespace WorkStealing.Blocking

variable {Q α E D : Type}

def isClose : Caller α E D → Bool
  | .running .close _ | .finished .close _ => true
  | _ => false

def Dutiful (k : Crew (Blocking Q) (Call α) (Point α E D) (Reply α)) : Call α → Prop
  | .enqueue _ => k.state.closed = true ∨ ∀ t ∈ k.threads, isClose t = false
  | .close => k.state.closed = true ∨ ∀ t ∈ k.threads, producing t = 0
  | .dequeue | .tryDequeue => True

def Recheck.Told : Recheck D → Prop
  | .last _ => True
  | .first _ | .flag => False

def Sleeper.Told : Sleeper α D → Prop
  | .recheck k => k.Told
  | .retract (.error _) => True
  | .retract (.ok _) | .declare | .wait _ | .wake => False

def Dequeue.Told : Dequeue α D → Prop
  | .drain _ => True
  | .sleep p => Sleeper.Told p
  | .spin _ _ | .flag => False

def Told : Caller α E D → Prop
  | .running _ (.dequeue p) => p.Told
  | .running _ (.close (.notify _)) => True
  | .finished _ (.popped (.error .closed)) => True
  | .finished _ .closed => True
  | _ => False

theorem state_embed_id {P R A : Type} {stay : P → Point α E D} {f : R → A}
    (b : Move (Blocking Q) P R) : (b.embed id stay fun q r => .done q (f r)).state = b.state := by
  cases b <;> rfl

theorem isClose_land {c : Call α} {p : Point α E D}
    (a : Move (Blocking Q) (Point α E D) (Reply α)) :
    isClose (a.land c).2 = isClose (.running c p : Caller α E D) := by
  cases a <;> cases c <;> rfl

theorem outside_of_producing {t : Caller α E D} (h : producing t = 0) : Outside t := by
  rcases t with ⟨_ | _ | _ | _, p⟩ | ⟨c, r⟩
  · exact absurd h Nat.one_ne_zero
  all_goals trivial

section Steps

variable [Queue Q α E D] {spins : Nat} {q : Blocking Q} {P R : Type}

theorem mem_tryBase {d : D} {stay : D → P} {finish : Blocking Q → Option α → Move (Blocking Q) P R}
    {a : Move (Blocking Q) P R} (ha : a ∈ tryBase q d stay finish) :
    (∃ b e, .go b e ∈ Queue.pop.moves q.base d ∧ a = .go (q.setBase b) (stay e)) ∨
      ∃ b v, .done b v ∈ Queue.pop.moves q.base d ∧ a = finish (q.setBase b) v := by
  obtain ⟨c, hc, rfl⟩ := List.mem_map.1 ha
  cases c with
  | go b e => exact .inl ⟨b, e, hc, rfl⟩
  | done b v => exact .inr ⟨b, v, hc, rfl⟩

theorem mem_notify {m : Gate.Notify} {stay : Gate.Notify → P}
    {finish : Blocking Q → Nat → Move (Blocking Q) P R} {a : Move (Blocking Q) P R}
    (ha : a ∈ Gate.notify q m stay finish) :
    (∃ g m', a = .go (Gated.setGate q g) (stay m')) ∨ ∃ g n, a = finish (Gated.setGate q g) n := by
  obtain ⟨c, -, rfl⟩ := List.mem_map.1 ha
  cases c with
  | go g m' => exact .inl ⟨g, m', rfl⟩
  | done g n => exact .inr ⟨g, n, rfl⟩

inductive Recheck.Step (q : Blocking Q) :
    Recheck D → Move (Blocking Q) (Recheck D) (Option (Except PopError α)) → Prop where
  | look {b : Q} {d e : D} (h : .go b e ∈ Queue.pop.moves q.base d) :
      Step q (.first d) (.go (q.setBase b) (.first e))
  | miss {b : Q} {d : D} (h : .done b none ∈ Queue.pop.moves q.base d) :
      Step q (.first d) (.go (q.setBase b) .flag)
  | find {b : Q} {d : D} {v : α} (h : .done b (some v) ∈ Queue.pop.moves q.base d) :
      Step q (.first d) (.done (q.setBase b) (some (.ok v)))
  | up (hc : q.closed = true) : Step q .flag (.go q (.last (Queue.popping Q)))
  | down (hc : q.closed = false) : Step q .flag (.done q none)
  | relook {b : Q} {d e : D} (h : .go b e ∈ Queue.pop.moves q.base d) :
      Step q (.last d) (.go (q.setBase b) (.last e))
  | exhaust {b : Q} {d : D} (h : .done b none ∈ Queue.pop.moves q.base d) :
      Step q (.last d) (.done (q.setBase b) (some (.error .closed)))
  | refind {b : Q} {d : D} {v : α} (h : .done b (some v) ∈ Queue.pop.moves q.base d) :
      Step q (.last d) (.done (q.setBase b) (some (.ok v)))

theorem Recheck.step {k : Recheck D} {a : Move (Blocking Q) (Recheck D) (Option (Except PopError α))}
    (ha : a ∈ k.moves q) : Step q k a := by
  cases k with
  | first d =>
    simp only [moves] at ha
    rcases mem_tryBase ha with ⟨b, e, h, rfl⟩ | ⟨b, _ | v, h, rfl⟩
    · exact .look h
    · exact .miss h
    · exact .find h
  | flag =>
    simp only [moves] at ha
    split at ha
    · rename_i hc
      exact List.mem_singleton.1 ha ▸ .up hc
    · rename_i hc
      exact List.mem_singleton.1 ha ▸ .down (Bool.eq_false_iff.2 hc)
  | last d =>
    simp only [moves] at ha
    rcases mem_tryBase ha with ⟨b, e, h, rfl⟩ | ⟨b, _ | v, h, rfl⟩
    · exact .relook h
    · exact .exhaust h
    · exact .refind h

inductive Sleeper.Step (q : Blocking Q) :
    Sleeper α D → Move (Blocking Q) (Sleeper α D) (Option (Except PopError α)) → Prop where
  | declare {g : Gate} :
      Step q .declare (.go (Gated.setGate q g) (.recheck (.first (Queue.popping Q))))
  | recheck {k l : Recheck D} {t : Blocking Q} (h : k.Step q (.go t l)) :
      Step q (.recheck k) (.go t (.recheck l))
  | miss {k : Recheck D} {t : Blocking Q} (h : k.Step q (.done t none)) :
      Step q (.recheck k) (.go t (.wait .subtract))
  | find {k : Recheck D} {t : Blocking Q} {r : Except PopError α} (h : k.Step q (.done t (some r))) :
      Step q (.recheck k) (.go t (.retract r))
  | retract {g : Gate} {r : Except PopError α} :
      Step q (.retract r) (.done (Gated.setGate q g) (some r))
  | wait {g : Gate} {w x : Semaphore.Wait} : Step q (.wait w) (.go (Gated.setGate q g) (.wait x))
  | waken {g : Gate} {w : Semaphore.Wait} : Step q (.wait w) (.go (Gated.setGate q g) .wake)
  | wake {g : Gate} : Step q .wake (.done (Gated.setGate q g) none)

theorem Sleeper.step {p : Sleeper α D}
    {a : Move (Blocking Q) (Sleeper α D) (Option (Except PopError α))} (ha : a ∈ p.moves recheck q) :
    Step q p a := by
  cases p with
  | declare => exact List.mem_singleton.1 ha ▸ .declare
  | recheck k =>
    obtain ⟨b, hb, rfl⟩ := List.mem_map.1 ha
    have hs := Recheck.step hb
    rcases b with ⟨t, l⟩ | ⟨t, _ | r⟩
    · exact .recheck hs
    · exact .miss hs
    · exact .find hs
  | retract r => exact List.mem_singleton.1 ha ▸ .retract
  | wait w =>
    obtain ⟨b, -, rfl⟩ := List.mem_map.1 ha
    cases b with
    | go s x => exact .wait
    | done s r => exact .waken
  | wake => exact List.mem_singleton.1 ha ▸ .wake

inductive Dequeue.Step (spins : Nat) (q : Blocking Q) :
    Dequeue α D → Move (Blocking Q) (Dequeue α D) (Except PopError α) → Prop where
  | look {b : Q} {left : Nat} {d e : D} (h : .go b e ∈ Queue.pop.moves q.base d) :
      Step spins q (.spin left d) (.go (q.setBase b) (.spin left e))
  | miss {b : Q} {left : Nat} {d : D} {x : Dequeue α D}
      (h : .done b none ∈ Queue.pop.moves q.base d) (hx : x = Dequeue.spins Q left) :
      Step spins q (.spin left d) (.go (q.setBase b) x)
  | find {b : Q} {left : Nat} {d : D} {v : α} (h : .done b (some v) ∈ Queue.pop.moves q.base d) :
      Step spins q (.spin left d) (.done (q.setBase b) (.ok v))
  | up (hc : q.closed = true) : Step spins q .flag (.go q (.drain (Queue.popping Q)))
  | down (hc : q.closed = false) : Step spins q .flag (.go q (.sleep .declare))
  | relook {b : Q} {d e : D} (h : .go b e ∈ Queue.pop.moves q.base d) :
      Step spins q (.drain d) (.go (q.setBase b) (.drain e))
  | exhaust {b : Q} {d : D} (h : .done b none ∈ Queue.pop.moves q.base d) :
      Step spins q (.drain d) (.done (q.setBase b) (.error .closed))
  | refind {b : Q} {d : D} {v : α} (h : .done b (some v) ∈ Queue.pop.moves q.base d) :
      Step spins q (.drain d) (.done (q.setBase b) (.ok v))
  | sleep {p p' : Sleeper α D} {t : Blocking Q} (h : Sleeper.Step q p (.go t p')) :
      Step spins q (.sleep p) (.go t (.sleep p'))
  | wake {p : Sleeper α D} {t : Blocking Q} {x : Dequeue α D} (h : Sleeper.Step q p (.done t none))
      (hx : x = Dequeue.spins Q spins) : Step spins q (.sleep p) (.go t x)
  | leave {p : Sleeper α D} {t : Blocking Q} {r : Except PopError α}
      (h : Sleeper.Step q p (.done t (some r))) : Step spins q (.sleep p) (.done t r)

theorem Dequeue.step {p : Dequeue α D} {a : Move (Blocking Q) (Dequeue α D) (Except PopError α)}
    (ha : a ∈ p.moves spins q) : Step spins q p a := by
  cases p with
  | spin left d =>
    simp only [moves] at ha
    rcases mem_tryBase ha with ⟨b, e, h, rfl⟩ | ⟨b, _ | v, h, rfl⟩
    · exact .look h
    · exact .miss h rfl
    · exact .find h
  | flag =>
    simp only [moves] at ha
    split at ha
    · rename_i hc
      exact List.mem_singleton.1 ha ▸ .up hc
    · rename_i hc
      exact List.mem_singleton.1 ha ▸ .down (Bool.eq_false_iff.2 hc)
  | drain d =>
    simp only [moves] at ha
    rcases mem_tryBase ha with ⟨b, e, h, rfl⟩ | ⟨b, _ | v, h, rfl⟩
    · exact .relook h
    · exact .exhaust h
    · exact .refind h
  | sleep p =>
    obtain ⟨b, hb, rfl⟩ := List.mem_map.1 ha
    have hs := Sleeper.step hb
    rcases b with ⟨t, p'⟩ | ⟨t, _ | r⟩
    · exact .sleep hs
    · exact .wake hs rfl
    · exact .leave hs

inductive TryDequeue.Step (q : Blocking Q) :
    TryDequeue D → Move (Blocking Q) (TryDequeue D) (Except PopError α) → Prop where
  | look {b : Q} {d e : D} (h : .go b e ∈ Queue.pop.moves q.base d) :
      Step q (.pop d) (.go (q.setBase b) (.pop e))
  | miss {b : Q} {d : D} (h : .done b none ∈ Queue.pop.moves q.base d) :
      Step q (.pop d) (.go (q.setBase b) .verdict)
  | find {b : Q} {d : D} {v : α} (h : .done b (some v) ∈ Queue.pop.moves q.base d) :
      Step q (.pop d) (.done (q.setBase b) (.ok v))
  | up (hc : q.closed = true) : Step q .verdict (.done q (.error .closed))
  | down (hc : q.closed = false) : Step q .verdict (.done q (.error .empty))

theorem TryDequeue.step {p : TryDequeue D}
    {a : Move (Blocking Q) (TryDequeue D) (Except PopError α)} (ha : a ∈ p.moves q) : Step q p a := by
  cases p with
  | pop d =>
    simp only [moves] at ha
    rcases mem_tryBase ha with ⟨b, e, h, rfl⟩ | ⟨b, _ | v, h, rfl⟩
    · exact .look h
    · exact .miss h
    · exact .find h
  | verdict =>
    obtain rfl := List.mem_singleton.1 ha
    split
    · rename_i hc
      exact .up hc
    · rename_i hc
      exact .down (Bool.eq_false_iff.2 hc)

/-- A step that leaves the flag alone, and by which nobody comes to `told` without having been told
before or having seen the flag up. -/
structure Honest (q : Blocking Q) (before : Prop) (told : P → Prop) (settled : R → Prop)
    (a : Move (Blocking Q) P R) : Prop where
  closed : a.state.closed = q.closed
  told : a.tally told settled → before ∨ q.closed = true

theorem Recheck.Step.honest {k : Recheck D}
    {a : Move (Blocking Q) (Recheck D) (Option (Except PopError α))} (h : k.Step q a) :
    Honest q k.Told Recheck.Told (fun found => ∃ e, found = some (.error e)) a := by
  cases h with
  | up hc => exact ⟨rfl, fun _ => .inr hc⟩
  | relook | exhaust | refind => exact ⟨rfl, fun _ => .inl trivial⟩
  | look | miss => exact ⟨rfl, False.elim⟩
  | find | down => exact ⟨rfl, by rintro ⟨e, ⟨⟩⟩⟩

def Sleeper.Frank : Sleeper α D → Prop
  | .retract r => r ≠ .error .empty
  | .declare | .recheck _ | .wait _ | .wake => True

theorem Sleeper.Step.honest {p : Sleeper α D}
    {a : Move (Blocking Q) (Sleeper α D) (Option (Except PopError α))} (h : Sleeper.Step q p a) :
    Honest q (Sleeper.Told p) Sleeper.Told (fun found => ∃ e, found = some (.error e)) a := by
  cases h with
  | recheck h => exact ⟨h.honest.closed, h.honest.told⟩
  | miss h => exact ⟨h.honest.closed, False.elim⟩
  | @find k t r h =>
    refine ⟨h.honest.closed, fun ht => h.honest.told ?_⟩
    cases r with
    | error e => exact ⟨e, rfl⟩
    | ok v => exact ht.elim
  | @retract g r =>
    refine ⟨rfl, ?_⟩
    rintro ⟨e, ⟨⟩⟩
    exact .inl trivial
  | wake => exact ⟨rfl, by rintro ⟨e, ⟨⟩⟩⟩
  | declare | wait | waken => exact ⟨rfl, False.elim⟩

theorem Sleeper.Step.frank {p : Sleeper α D}
    {a : Move (Blocking Q) (Sleeper α D) (Option (Except PopError α))} (h : Sleeper.Step q p a)
    (hf : Sleeper.Frank p) : a.tally Sleeper.Frank fun found => found ≠ some (.error .empty) := by
  cases h with
  | find h => cases h <;> simp [Move.tally, Sleeper.Frank]
  | retract => exact fun he => hf (Option.some.inj he)
  | wake => simp [Move.tally]
  | declare | recheck | miss | wait | waken => trivial

def Dequeue.Frank : Dequeue α D → Prop
  | .sleep p => Sleeper.Frank p
  | .spin _ _ | .flag | .drain _ => True

theorem spins_frank (n : Nat) :
    ¬ (Dequeue.spins Q n : Dequeue α D).Told ∧ (Dequeue.spins Q n : Dequeue α D).Frank := by
  cases n with
  | zero => exact ⟨False.elim, trivial⟩
  | succ n => exact ⟨False.elim, trivial⟩

theorem Dequeue.Step.honest {p : Dequeue α D}
    {a : Move (Blocking Q) (Dequeue α D) (Except PopError α)} (h : p.Step spins q a) :
    Honest q p.Told Dequeue.Told (fun r => ∃ e, r = .error e) a := by
  cases h with
  | up hc => exact ⟨rfl, fun _ => .inr hc⟩
  | relook | exhaust | refind => exact ⟨rfl, fun _ => .inl trivial⟩
  | look | down => exact ⟨rfl, False.elim⟩
  | miss h hx => exact ⟨rfl, fun ht => absurd (hx ▸ ht) (spins_frank _).1⟩
  | find h => exact ⟨rfl, by rintro ⟨e, ⟨⟩⟩⟩
  | sleep h => exact ⟨h.honest.closed, h.honest.told⟩
  | wake h hx => exact ⟨h.honest.closed, fun ht => absurd (hx ▸ ht) (spins_frank _).1⟩
  | leave h =>
    refine ⟨h.honest.closed, ?_⟩
    rintro ⟨e, rfl⟩
    exact h.honest.told ⟨e, rfl⟩

theorem Dequeue.Step.frank {p : Dequeue α D}
    {a : Move (Blocking Q) (Dequeue α D) (Except PopError α)} (h : p.Step spins q a)
    (hf : p.Frank) : a.tally Dequeue.Frank fun r => r ≠ .error .empty := by
  cases h with
  | miss h hx => exact hx ▸ (spins_frank _).2
  | wake h hx => exact hx ▸ (spins_frank _).2
  | sleep h => exact h.frank hf
  | leave h => exact fun he => h.frank hf (congrArg some he)
  | find | exhaust | refind => simp [Move.tally]
  | look | up | down | relook => trivial

theorem TryDequeue.Step.honest {p : TryDequeue D}
    {a : Move (Blocking Q) (TryDequeue D) (Except PopError α)} (h : p.Step q a) :
    Honest q False (fun _ => False) (fun r => r = .error .closed) a := by
  cases h with
  | look | miss => exact ⟨rfl, False.elim⟩
  | up hc => exact ⟨rfl, fun _ => .inr hc⟩
  | find | down => exact ⟨rfl, by rintro ⟨⟩⟩

theorem Enqueue.closed_eq {p : Enqueue α E}
    {a : Move (Blocking Q) (Enqueue α E) (Except (PushError α) Unit)} (ha : a ∈ p.moves q) :
    a.state.closed = q.closed := by
  cases p with
  | flag w =>
    simp only [moves] at ha
    split at ha <;> obtain rfl := List.mem_singleton.1 ha <;> rfl
  | push e =>
    obtain ⟨b, -, rfl⟩ := List.mem_map.1 ha
    rcases b with ⟨t, e'⟩ | ⟨t, _ | _⟩ <;> rfl
  | notify m =>
    simp only [moves] at ha
    rcases mem_notify ha with ⟨g, m', rfl⟩ | ⟨g, n, rfl⟩ <;> rfl

def Close.Told : Close → Prop
  | .notify _ => True
  | .raise => False

theorem Close.closed_of_raise {p : Close} {a : Move (Blocking Q) Close Unit} (ha : a ∈ p.moves q) :
    (p = .raise ∧ a.state.closed = true) ∨ (p.Told ∧ a.state.closed = q.closed) := by
  cases p with
  | raise =>
    obtain rfl := List.mem_singleton.1 ha
    exact .inl ⟨rfl, rfl⟩
  | notify m =>
    simp only [moves] at ha
    rcases mem_notify ha with ⟨g, m', rfl⟩ | ⟨g, n, rfl⟩ <;> exact .inr ⟨trivial, rfl⟩

def Frank : Caller α E D → Prop
  | .running .dequeue (.dequeue p) => p.Frank
  | .finished .dequeue (.popped r) => r ≠ .error .empty
  | .running .dequeue _ | .finished .dequeue _ => False
  | .running .close _ => True
  | .running _ (.close _) => False
  | _ => True

variable {c : Call α} {p : Point α E D} {a : Move (Blocking Q) (Point α E D) (Reply α)}

theorem Point.closed_or (ha : a ∈ p.moves spins q) :
    a.state.closed = q.closed ∨ p = .close .raise ∧ a.state.closed = true := by
  cases p with
  | enqueue p =>
    obtain ⟨b, hb, rfl⟩ := List.mem_map.1 ha
    exact .inl (state_embed_id b ▸ Enqueue.closed_eq hb)
  | dequeue p =>
    obtain ⟨b, hb, rfl⟩ := List.mem_map.1 ha
    exact .inl (state_embed_id b ▸ (Dequeue.step hb).honest.closed)
  | tryDequeue p =>
    obtain ⟨b, hb, rfl⟩ := List.mem_map.1 ha
    exact .inl (state_embed_id b ▸ (TryDequeue.step hb).honest.closed)
  | close p =>
    obtain ⟨b, hb, rfl⟩ := List.mem_map.1 ha
    rw [state_embed_id]
    rcases Close.closed_of_raise hb with ⟨rfl, hc⟩ | ⟨-, hc⟩
    · exact .inr ⟨rfl, hc⟩
    · exact .inl hc

theorem Point.told_land (ha : a ∈ p.moves spins q) (ht : Told (a.land c).2) :
    Told (.running c p) ∨ a.state.closed = true := by
  have hclosed := Point.closed_or ha
  cases p with
  | enqueue p =>
    obtain ⟨b, hb, rfl⟩ := List.mem_map.1 ha
    cases b <;> exact ht.elim
  | dequeue p =>
    have hseen : p.Told ∨ q.closed = true := by
      obtain ⟨b, hb, rfl⟩ := List.mem_map.1 ha
      refine (Dequeue.step hb).honest.told ?_
      rcases b with ⟨t, p'⟩ | ⟨t, (_ | _) | _⟩
      · exact ht
      · exact ht.elim
      · exact ⟨_, rfl⟩
      · exact ht.elim
    exact hseen.imp_right fun hc => by simpa [hc] using hclosed
  | tryDequeue p =>
    have hseen : False ∨ q.closed = true := by
      obtain ⟨b, hb, rfl⟩ := List.mem_map.1 ha
      refine (TryDequeue.step hb).honest.told ?_
      rcases b with ⟨t, p'⟩ | ⟨t, (_ | _) | _⟩
      · exact ht
      · exact ht.elim
      · rfl
      · exact ht.elim
    exact .inr (by simpa [hseen.resolve_left id] using hclosed)
  | close p =>
    cases p with
    | notify m => exact .inl trivial
    | raise =>
      obtain rfl := List.mem_singleton.1 ha
      exact .inr rfl

theorem Point.frank_land (ha : a ∈ p.moves spins q) (hf : Frank (.running c p)) :
    Frank (a.land c).2 := by
  rcases c with v | _ | _ | _ <;> rcases p with p | p | p | p <;> try exact hf.elim
  case dequeue.dequeue =>
    obtain ⟨b, hb, rfl⟩ := List.mem_map.1 ha
    have := (Dequeue.step hb).frank hf
    cases b <;> exact this
  all_goals
    obtain ⟨b, hb, rfl⟩ := List.mem_map.1 ha
    cases b <;> trivial

theorem Point.rejected_land {v : α} (ha : a ∈ p.moves spins q) (hc : q.closed = true)
    (ho : Outside (.running (.enqueue v) p)) :
    ∃ w, (a.land (Call.enqueue v)).2 = .finished (.enqueue v) (.pushed (.error (.closed w))) := by
  rcases p with (w | e | m) | p | p | p <;> try exact ho.elim
  obtain ⟨b, hb, rfl⟩ := List.mem_map.1 ha
  simp only [Enqueue.moves, hc, if_true] at hb
  obtain rfl := List.mem_singleton.1 hb
  exact ⟨w, rfl⟩

theorem Point.outside_land (ha : a ∈ p.moves spins q) (hc : q.closed = true)
    (ho : Outside (.running c p)) : Outside (a.land c).2 := by
  cases c with
  | enqueue v =>
    obtain ⟨w, hw⟩ := Point.rejected_land ha hc ho
    rw [hw]
    trivial
  | dequeue => cases a <;> trivial
  | tryDequeue => cases a <;> trivial
  | close => cases a <;> trivial

end Steps

section Runs

variable [Queue Q α E D] {spins : Nat} {log : Log Q α}
  {k : Crew (Blocking Q) (Call α) (Point α E D) (Reply α)}

structure Shut (k : Crew (Blocking Q) (Call α) (Point α E D) (Reply α)) : Prop where
  settled : (∃ t ∈ k.threads, isClose t = true) →
    k.state.closed = true ∨ ∀ t ∈ k.threads, producing t = 0
  outside : k.state.closed = true → ∀ t ∈ k.threads, Outside t
  asked : k.state.closed = true → ∃ t ∈ k.threads, isClose t = true
  told : ∀ t ∈ k.threads, Told t → k.state.closed = true
  frank : ∀ t ∈ k.threads, Frank t

theorem enter_fresh (spins : Nat) (c : Call α) : Outside (.running c (c.enter Q spins)) ∧
    ¬ Told (.running c (c.enter Q spins)) ∧ Frank (.running c (c.enter Q spins)) := by
  cases c with
  | enqueue v => exact ⟨trivial, id, trivial⟩
  | dequeue => exact ⟨trivial, spins_frank spins⟩
  | tryDequeue => exact ⟨trivial, id, trivial⟩
  | close => exact ⟨trivial, id, trivial⟩

theorem Shut.start {c : Call α} (h : Shut k) (hc : Dutiful k c) :
    Shut (k.start (calls spins) c) := by
  obtain ⟨h1, h2, h3, h4, h5⟩ := h
  obtain ⟨ho, ht, hf⟩ := enter_fresh (Q := Q) spins c
  have hmem {t} : t ∈ (k.start (calls spins) c).threads ↔
      t ∈ k.threads ∨ t = .running c (c.enter Q spins) := by simp [Crew.start, calls]
  have hclosed : (k.start (calls spins) c).state.closed = k.state.closed := rfl
  refine ⟨?_, ?_, ?_, ?_, ?_⟩
  · rintro ⟨t, ht, hclose⟩
    by_cases hold : ∃ t ∈ k.threads, isClose t = true
    · refine (h1 hold).elim .inl fun hp => ?_
      cases c with
      | enqueue v =>
        obtain ⟨u, hu, huc⟩ := hold
        exact .inl (hc.resolve_right fun hn => by simp [hn u hu] at huc)
      | dequeue | tryDequeue | close =>
        refine .inr fun u hu => ?_
        rcases hmem.1 hu with hu | rfl
        · exact hp u hu
        · rfl
    · have hnew : t = .running c (c.enter Q spins) :=
        (hmem.1 ht).resolve_left fun ht => hold ⟨t, ht, hclose⟩
      subst hnew
      cases c with
      | close =>
        refine hc.imp_right fun hp u hu => ?_
        rcases hmem.1 hu with hu | rfl
        · exact hp u hu
        · rfl
      | enqueue v | dequeue | tryDequeue => exact absurd hclose Bool.false_ne_true
  · intro hup u hu
    rcases hmem.1 hu with hu | rfl
    · exact h2 hup u hu
    · exact ho
  · intro hup
    obtain ⟨u, hu, huc⟩ := h3 hup
    exact ⟨u, hmem.2 (.inl hu), huc⟩
  · intro u hu hut
    rcases hmem.1 hu with hu | rfl
    · exact h4 u hu hut
    · exact absurd hut ht
  · intro u hu
    rcases hmem.1 hu with hu | rfl
    · exact h5 u hu
    · exact hf

theorem Shut.move {s : Blocking Q} {before after : List (Caller α E D)} {c : Call α}
    {p : Point α E D} {a : Move (Blocking Q) (Point α E D) (Reply α)}
    (h : Shut ⟨s, before ++ .running c p :: after⟩) (ha : a ∈ p.moves spins s) :
    Shut ⟨(a.land c).1, before ++ (a.land c).2 :: after⟩ := by
  obtain ⟨h1, h2, h3, h4, h5⟩ := h
  have hmem {x t : Caller α E D} :
      t ∈ before ++ x :: after ↔ t = x ∨ t ∈ before ++ after := by simp [or_left_comm]
  have hself : Thread.running c p ∈ before ++ .running c p :: after := hmem.2 (.inl rfl)
  have hup : s.closed = true → a.state.closed = true := fun hs => by
    rcases Point.closed_or ha with he | ⟨-, he⟩
    · rw [he, hs]
    · exact he
  -- who closes the queue was sent to, and so nobody is about to bring a value
  have hraise : a.state.closed = true → s.closed = true ∨
      isClose (.running c p : Caller α E D) = true ∧
        ∀ t ∈ before ++ .running c p :: after, producing t = 0 := fun hs => by
    rcases Point.closed_or ha with he | ⟨rfl, -⟩
    · exact .inl (he ▸ hs)
    · have hf := h5 _ hself
      cases c with
      | close => exact (h1 ⟨_, hself, rfl⟩).imp_right fun hp => ⟨rfl, hp⟩
      | enqueue v | dequeue | tryDequeue => exact hf.elim
  have hclose : (∃ t ∈ before ++ (a.land c).2 :: after, isClose t = true) ↔
      ∃ t ∈ before ++ .running c p :: after, isClose t = true := by
    simp only [hmem, or_and_right, exists_or, exists_eq_left, isClose_land (p := p)]
  rw [Move.fst_land]
  refine ⟨fun hex => ?_, fun hs u hu => ?_, fun hs => ?_, fun u hu hut => ?_, fun u hu => ?_⟩
  · refine (h1 (hclose.1 hex)).imp hup fun hp u hu => ?_
    rcases hmem.1 hu with rfl | hu
    · exact Nat.le_zero.1 (hp _ hself ▸ producing_land a)
    · exact hp u (hmem.2 (.inr hu))
  · rcases hraise hs with hs | ⟨hc, hp⟩
    · rcases hmem.1 hu with rfl | hu
      · exact Point.outside_land ha hs (h2 hs _ hself)
      · exact h2 hs u (hmem.2 (.inr hu))
    · rcases hmem.1 hu with rfl | hu
      · exact outside_of_producing (Nat.le_zero.1 (hp _ hself ▸ producing_land a))
      · exact outside_of_producing (hp u (hmem.2 (.inr hu)))
  · rw [hclose]
    rcases hraise hs with hs | ⟨hc, -⟩
    · exact h3 hs
    · exact ⟨_, hself, hc⟩
  · rcases hmem.1 hu with rfl | hu
    · exact (Point.told_land ha hut).elim (fun ht => hup (h4 _ hself ht)) id
    · exact hup (h4 u (hmem.2 (.inr hu)) hut)
  · rcases hmem.1 hu with rfl | hu
    · exact Point.frank_land ha (h5 _ hself)
    · exact h5 u (hmem.2 (.inr hu))

theorem closed_land {c : Call α} {p : Point α E D} {q : Blocking Q}
    {a : Move (Blocking Q) (Point α E D) (Reply α)} (ha : a ∈ p.moves spins q)
    (hc : q.closed = true) : (a.land c).1.closed = true := by
  rw [Move.fst_land]
  exact (Point.closed_or ha).elim (fun he => he.trans hc) And.right

theorem closed_of_run {j : Crew (Blocking Q) (Call α) (Point α E D) (Reply α)}
    {allowed : Crew (Blocking Q) (Call α) (Point α E D) (Reply α) → Call α → Prop}
    (hc : j.state.closed = true) (h : Crew.Run (calls spins) allowed j log k) :
    k.state.closed = true := by
  induction h with
  | refl => exact hc
  | start _ _ _ ih => exact ih
  | move _ ha ih => exact closed_land ha ih

theorem Shut.run {j : Crew (Blocking Q) (Call α) (Point α E D) (Reply α)} (hs : Shut j)
    (h : Crew.Run (calls spins) Dutiful j log k) : Shut k := by
  induction h with
  | refl => exact hs
  | start _ c hc ih => exact ih.start hc
  | move _ ha ih => exact ih.move ha

theorem run_shut {b : Q} (h : Crew.Run (calls spins) Dutiful ⟨⟨b, {}, false⟩, []⟩ log k) :
    Shut k := Shut.run ⟨by simp, by simp, by simp, by simp, by simp⟩ h

end Runs

end WorkStealing.Blocking
