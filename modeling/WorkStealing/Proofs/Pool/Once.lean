import WorkStealing.Proofs.Pool.Refusal

namespace WorkStealing.Pool

variable {ι α : Type} (f : Item ι α → Bool)

section Working

def Activity.working : RingActivity ι α → Nat
  | .run _ .begin => 0
  | .run t _ => (f t).toNat
  | _ => 0

def Point.working : RingPoint ι α → Nat
  | .busy _ top below => top.working f + (below.map (Activity.working f)).sum
  | .await _ _ => 0

def threadWorking : RingThread ι α → Nat
  | .running _ pt => pt.working f
  | .finished _ _ => 0

def ended? : RingPoint ι α → Option (Item ι α)
  | .busy _ (.run t (.leave _)) _ => some t
  | _ => none

def ended (log : Log ι α) : List (Item ι α) := log.filterMap fun e => ended? e.point

variable {f}

theorem working_of_ne (t : Item ι α) {r : Run ι α} (h : r ≠ .begin) :
    (Activity.run t r : RingActivity ι α).working f = (f t).toNat := by
  cases r <;> first | rfl | exact absurd rfl h

theorem working_resume (policy : PanicPolicy) (o : Outcome) (x : RingActivity ι α) :
    (x.resume policy o).working f = x.working f := by
  cases x with
  | run t r => cases r <;> cases o <;> rfl
  | _ => rfl

theorem working_callee (k : Callee ι α) : (k.activity : RingActivity ι α).working f = 0 := by
  cases k <;> rfl

theorem working_done (place : Place) (below : List (RingActivity ι α)) (p : Rings ι α)
    (o : Outcome) : (Point.land place below (.done p o) : RingMove ι α).read (Point.working f)
      (fun _ => 0) = (below.map (Activity.working f)).sum := by
  cases below with
  | nil => rfl
  | cons x below =>
    rw [List.map_cons, List.sum_cons, ← working_resume p.panicPolicy o x]
    rfl

variable {n : Nat} {c : Call ι α} {place : Place} {below : List (RingActivity ι α)}
  {p : Rings ι α}

theorem Run.deed_working (t : Item ι α) (r : Run ι α) :
    (r.deed t).begins f + (Activity.run t r : RingActivity ι α).working f = (f t).toNat := by
  cases r <;> simp [Run.deed, Deed.begins, Activity.working]

theorem Run.eq_of_done {t : Item ι α} {r : Run ι α} {p' : Rings ι α} {o : Outcome}
    (ha : (.done p' o : TurnMove (Ring (Item ι α)) ι α (Run ι α)) ∈ r.moves place t p) :
    ∃ o', r = .leave o' := by
  cases Run.step ha with
  | leave => exact ⟨o, rfl⟩

theorem Run.ended?_of_go {t : Item ι α} {r : Run ι α} {p' : Rings ι α}
    {x : Turn ι α (Run ι α)} (ha : .go p' x ∈ r.moves place t p) :
    ended? (.busy place (.run t r) below : RingPoint ι α) = none := by
  cases Run.step ha <;> rfl

theorem Run.working_land {t : Item ι α} {r : Run ι α}
    {a : TurnMove (Ring (Item ι α)) ι α (Run ι α)} (ha : a ∈ r.moves place t p) :
    (r.deed t).begins f + (Point.busy place (.run t r) below : RingPoint ι α).working f =
      (ended? (.busy place (.run t r) below : RingPoint ι α)).toList.countP f +
        (Point.land place below (a.map (.run t)) : RingMove ι α).read (Point.working f)
          fun _ => 0 := by
  have hdeed := Run.deed_working (f := f) t r
  have hf := (Run.effect (n := 0) ha).2
  rcases a with ⟨p', r' | ⟨x, k⟩⟩ | ⟨p', o⟩
  · rw [Run.ended?_of_go ha]
    have := working_of_ne (f := f) t hf
    simp only [TurnMove.map, Move.embed, Turn.map, Point.land, Move.read, Point.working,
      Option.toList_none, List.countP_nil]
    omega
  · cases k with
    | run u => exact hf.elim
    | submit o =>
      obtain ⟨left, rfl⟩ := hf
      rw [Run.ended?_of_go ha]
      simp only [TurnMove.map, Move.embed, Turn.map, Point.land, Move.read, Point.working,
        Option.toList_none, List.countP_nil, working_callee, List.map_cons, List.sum_cons]
      change _ = 0 + (0 + ((f t).toNat + _))
      omega
  · obtain ⟨o', rfl⟩ := Run.eq_of_done ha
    rw [TurnMove.map, Move.embed, working_done]
    cases h : f t <;> simp [ended?, Point.working, Activity.working, Run.deed, Deed.begins, h]

theorem working_land {X : Type} {act : X → RingActivity ι α} (h : ∀ x, (act x).working f = 0)
    (b : TurnMove (Ring (Item ι α)) ι α X) :
    (Point.land place below (b.map act) : RingMove ι α).read (Point.working f) (fun _ => 0) =
      (below.map (Activity.working f)).sum := by
  rcases b with ⟨p', y | ⟨y, k⟩⟩ | ⟨p', o⟩
  · simp [TurnMove.map, Move.embed, Turn.map, Point.land, Move.read, Point.working, h]
  · simp [TurnMove.map, Move.embed, Turn.map, Point.land, Move.read, Point.working, h,
      working_callee]
  · rw [TurnMove.map, Move.embed, working_done]

theorem deed_shutdown_begins (unwinding : Bool) (s : Shutdown (Ring.Pop (Item ι α)) ι α)
    (a : RingMove ι α) : (deed (.busy place (.shutdown unwinding s) below) a).begins f = 0 := by
  cases s <;> rfl

theorem deed_submit_begins (s : Submit (Ring.Push (Item ι α)) ι α) (a : RingMove ι α) :
    (deed (.busy place (.submit s) below) a).begins f = 0 := by
  unfold deed
  split <;> simp_all [Deed.begins]

variable [BEq ι]

theorem Point.working_step {pt : RingPoint ι α} {a : RingMove ι α} (ha : a ∈ pt.moves p) :
    (deed pt a).begins f + pt.working f =
      (ended? pt).toList.countP f + a.read (Point.working f) fun _ => 0 := by
  cases Point.taken ha with
  | loop d hd =>
    rw [working_land fun _ => rfl]
    simp [deed, Deed.begins, ended?, Point.working, Activity.working]
  | run d hd =>
    rw [deed_run]
    exact Run.working_land hd
  | submit d hd =>
    rw [working_land fun _ => rfl, deed_submit_begins]
    simp [ended?, Point.working, Activity.working]
  | shutdown d hd =>
    rw [working_land fun _ => rfl, deed_shutdown_begins]
    simp [ended?, Point.working, Activity.working]
  | await d hz hd => cases d <;> rfl

end Working

section Places

def Asleep : RingPoint ι α → Prop
  | .busy _ (.loop _ (.search (.sleep (.wait .acquire)))) _ => True
  | _ => False

def ByWorker (n : Nat) (c : Call ι α) (pt : RingPoint ι α) (t : Item ι α) : Prop :=
  ∃ i < n, c = .work i ∧ pt = .busy (.worker i) (.run t .begin) [.loop i .working]

/-- Whoever submits a task runs it, after every queue has refused it, or the next chunk of the
range that it is all the rest of. -/
def Inline (n : Nat) (rs : List (Nat × Item ι α)) (pt : RingPoint ι α) (t : Item ι α) : Prop :=
  ∃ place handle? below, pt = .busy place (.run t .begin) (.submit (.inline handle?) :: below) ∧
    ∃ u, (u = t ∨ Heads u t) ∧ ∀ q < n, (q, u) ∈ rs.take n

structure Served (n : Nat) (log : Log ι α) (k : RingCrew ι α) : Prop where
  once : (begun log).Subperm (submitted log)
  place : ∀ e older t, e :: older <:+ log → deed e.point e.move = .begun t →
    ByWorker n e.call e.point t ∨ Inline n (refusals e.thread older) e.point t
  settled : (∀ o pt, .running (.submit o) pt ∉ k.threads) →
    (∀ i < n, ∃ pt, .running (.work i) pt ∈ k.threads) →
    (∀ i pt, .running (.work i) pt ∈ k.threads → Asleep pt) →
    k.state.gate.semaphore.permits = 0 →
    (∀ w ∈ k.state.workers, w.queue.isEmpty ∧ Holding.items w.queue = []) ∧
      (begun log).Perm (submitted log) ∧ (ended log).Perm (submitted log)

theorem point_of_begun {pt : RingPoint ι α} {a : RingMove ι α} {t : Item ι α}
    (h : deed pt a = .begun t) : ∃ place below, pt = .busy place (.run t .begin) below := by
  unfold deed at h
  split at h
  · cases h
    exact ⟨_, _, rfl⟩
  all_goals cases h

theorem mem_take_of_tried {n q : Nat} {u : Item ι α} {rs : List (Nat × Item ι α)}
    (h : tried n q n u <+: rs) : ∀ q < n, (q, u) ∈ rs.take n := by
  intro w hw
  obtain ⟨rest, rfl⟩ := h
  rw [List.take_left' (by simp [tried])]
  exact mem_tried q u hw

theorem Sane.place {n : Nat} {c : Call ι α} {pt : RingPoint ι α} {t : Item ι α}
    {a : RingMove ι α} {rs : List (Nat × Item ι α)} (hs : Sane n c pt) (ht : Turned n rs pt)
    (h : deed pt a = .begun t) : ByWorker n c pt t ∨ Inline n rs pt t := by
  obtain ⟨place, below, rfl⟩ := point_of_begun h
  have hs : Stacked n c place true below := hs
  cases hs with
  | worker hi => exact .inl ⟨_, hi, rfl, rfl⟩
  | inline hs =>
    obtain ⟨u, q, hu, hq⟩ := ht
    exact .inr ⟨place, _, _, rfl, u, hu, mem_take_of_tried hq⟩

theorem Sane.idle {n : Nat} {c : Call ι α} {pt : RingPoint ι α} (hs : Sane n c pt)
    (hsubmit : ∀ o, c ≠ .submit o) (hwork : ∀ i, c = .work i → Asleep pt) :
    (pt.view n = .away ∨ ∃ i, pt.view n = .acquiring i) ∧ pt.working f = 0 := by
  cases pt with
  | await slot w => exact ⟨.inl rfl, rfl⟩
  | busy place top below =>
    cases top with
    | loop i l =>
      obtain ⟨rfl, -, rfl, -, -⟩ := hs
      have := hwork i rfl
      unfold Asleep at this
      split at this
      · rename_i he
        cases he
        exact ⟨.inr ⟨i, rfl⟩, rfl⟩
      · exact this.elim
    | run t r =>
      rcases Stacked.call hs with ⟨i, rfl⟩ | ⟨o, rfl⟩
      · exact (hwork i rfl).elim
      · exact absurd rfl (hsubmit o)
    | submit s =>
      rcases Stacked.call hs with ⟨i, rfl⟩ | ⟨o, rfl⟩
      · exact (hwork i rfl).elim
      · exact absurd rfl (hsubmit o)
    | shutdown unwinding s => exact hs.elim

end Places

section Runs

variable [BEq ι] {c : Config} {cores : Nat} {p : Rings ι α} {log : Log ι α} {k : RingCrew ι α}

theorem run_working {allowed : RingCrew ι α → Call ι α → Prop}
    (h : Crew.Run calls allowed ⟨p, []⟩ log k) :
    (begun log).countP f = (ended log).countP f + Crew.total (threadWorking f) k := by
  induction h with
  | refl => rfl
  | start _ c _ ih =>
    rw [ih, Crew.total_start]
    cases c <;> simp [threadWorking, calls, Call.enter, Point.working, Activity.working]
  | move hr ha ih =>
    rename_i log s before after c pt a
    have hw := Point.working_step (f := f) ha
    have hland : threadWorking f (a.land c).2 = a.read (Point.working f) fun _ => 0 := by
      cases a <;> rfl
    rw [Crew.total_split, Crew.total_state _ _ s, hland, countP_begun_cons]
    rw [Crew.total_split] at ih
    change _ = _ + (Point.working f pt + _) at ih
    have hended : (ended (⟨before.length, c, s, pt, a⟩ :: log)).countP f =
        (ended log).countP f + (ended? pt).toList.countP f := by
      cases h : ended? pt <;> simp [ended, h, List.countP_cons]
    rw [hended]
    dsimp only
    omega

theorem run_served (hp : Pool.new c cores = .ok p) (hn : p.size ≤ 2 ^ 63)
    (h : Crew.Run calls (fun k c => Serves p.size k c) ⟨p, []⟩ log k) (hb : claims log < 2 ^ 63) :
    Served p.size log k := by
  classical
  refine ⟨?_, ?_, ?_⟩
  · -- what is counted is this one task
    refine List.subperm_ext_iff.2 fun t _ => ?_
    obtain ⟨G, hs, -⟩ := run_sound hp hn h hb (· == t)
    have := hs.kept
    rw [List.count_eq_countP, List.count_eq_countP]
    omega
  · intro e older t he hd
    obtain ⟨before, after, hr, hlen, ha⟩ := h.entry he
    have hle : claims older ≤ claims log :=
      ((List.sublist_cons_self e older).trans he.sublist).countP_le
    obtain ⟨G, -, hk⟩ := run_sound hp hn hr (by omega) fun _ => true
    have hthread : (before ++ .running e.call e.point :: after)[e.thread]? =
        some (.running e.call e.point) := by simp [← hlen]
    have ht := run_turned hp hn hr (by omega) hthread
    exact (hk (.running e.call e.point) (by simp)).1.place ht hd
  · intro hsubmit hall hwork hpermits
    have hidle : ∀ t ∈ k.threads, ((actor p.size t).2 = .away ∨
        ∃ i, (actor p.size t).2 = .acquiring i) ∧ ∀ f, threadWorking f t = 0 := by
      intro t ht
      obtain ⟨G, -, hk⟩ := run_sound hp hn h hb fun _ => true
      cases t with
      | finished c r => exact ⟨.inl rfl, fun _ => rfl⟩
      | running c pt =>
        have hi (f : Item ι α → Bool) := (hk _ ht).1.idle f
          (fun o hc => hsubmit o pt (hc ▸ ht)) fun i hc => hwork i pt (hc ▸ ht)
        exact ⟨(hi fun _ => true).1, fun f => (hi f).2⟩
    have hsettled (f : Item ι α → Bool) : (begun log).countP f = (submitted log).countP f ∧
        ∀ r ∈ (core k.state).queues, r.isEmpty ∧ Holding.items r = [] := by
      obtain ⟨G, hs, -⟩ := run_sound hp hn h hb f
      refine hs.settled (new_ok hp).1 (fun a ha => ?_) (fun i hi => ?_) hpermits
      · obtain ⟨t, ht, rfl⟩ := mem_total_share.1 ha
        exact (hidle t ht).1
      · obtain ⟨pt, ht⟩ := hall i hi
        have hpt := hwork i pt ht
        unfold Asleep at hpt
        split at hpt
        · exact ⟨_, mem_total_share.2 ⟨_, ht, rfl⟩⟩
        · exact hpt.elim
    have hended (f : Item ι α → Bool) : (begun log).countP f = (ended log).countP f := by
      rw [run_working f h, Crew.total_eq_zero fun t ht => (hidle t ht).2 f, Nat.add_zero]
    refine ⟨fun w hw => (hsettled fun _ => true).2 _ (List.mem_map_of_mem hw), ?_, ?_⟩
    · exact List.perm_iff_count.2 fun t => (hsettled (· == t)).1
    · exact List.perm_iff_count.2 fun t => (hended (· == t)).symm.trans (hsettled (· == t)).1

def narrow : Config := { workerCount := some 1, queueCapacity := 2, spinCount := 0 }

def alone : Rings Nat Unit :=
  { ofQueue ⟨#[⟨0, none⟩, ⟨1, none⟩], 1, .inOrder 1, 0, 0⟩ 1 narrow with
    history := [.notice (.started 1 2)] }

def ask (i : Nat) : Call Nat Unit := .submit (.task i .small .nothing none)

/-- Two tasks fill the only queue, a third one runs inline, and then the worker comes. -/
def overflow : List (Crew.Cue (Call Nat Unit)) :=
  .start (ask 0) :: List.replicate 11 (.move 0 0) ++
    .start (ask 1) :: List.replicate 11 (.move 1 0) ++
    .start (ask 2) :: List.replicate 7 (.move 2 0) ++
    .start (.work 0) :: List.replicate 28 (.move 3 0)

theorem run_served_overflow : ∃ (log : Log Nat Unit) (k : RingCrew Nat Unit),
    Pool.new narrow 0 = .ok alone ∧ alone.size ≤ 2 ^ 63 ∧
      Crew.Run calls (fun k c => Serves alone.size k c) ⟨alone, []⟩ log k ∧
      claims log < 2 ^ 63 ∧ Served alone.size log k ∧
      k.threads = [.finished (ask 0) (.left .returned), .finished (ask 1) (.left .returned),
        .finished (ask 2) (.left .returned), .running (.work 0)
          (.busy (.worker 0) (.loop 0 (.search (.sleep (.wait .acquire)))) [])] ∧
      k.state.gate.semaphore.permits = 0 ∧ (submitted log).length = 3 ∧
      (ended log).Perm (submitted log) := by
  have hnew : Pool.new narrow 0 = .ok alone := by rfl
  have hp : (Crew.play calls (Serves 1) overflow [] ⟨alone, []⟩).map (fun x =>
      (x.2.threads, x.2.state.gate.semaphore.permits, claims x.1, (submitted x.1).length)) =
      some ([.finished (ask 0) (.left .returned), .finished (ask 1) (.left .returned),
        .finished (ask 2) (.left .returned), .running (.work 0)
          (.busy (.worker 0) (.loop 0 (.search (.sleep (.wait .acquire)))) [])], 0, 2, 3) := by rfl
  obtain ⟨⟨log, k⟩, hp, he⟩ := Option.map_eq_some_iff.1 hp
  obtain ⟨ht, hz, hc, hl⟩ := by simpa only [Prod.mk.injEq] using he
  have hrun := Crew.run_play (fun _ _ h => h) (.refl (m := calls)) hp
  have hsize : alone.size ≤ 2 ^ 63 := by decide
  have hclaims : claims log < 2 ^ 63 := by rw [hc]; decide
  have hserved := run_served hnew hsize hrun hclaims
  refine ⟨log, k, hnew, hsize, hrun, hclaims, hserved, ht, hz, hl, ?_⟩
  refine (hserved.settled ?_ ?_ ?_ hz).2.2
  · simp [ht]
  · intro i hi
    obtain rfl : i = 0 := Nat.lt_one_iff.1 hi
    exact ⟨.busy (.worker 0) (.loop 0 (.search (.sleep (.wait .acquire)))) [], by simp [ht]⟩
  · intro i pt hpt
    obtain ⟨-, rfl⟩ : i = 0 ∧ pt = _ := by simpa [ht, ask] using hpt
    trivial

end Runs

end WorkStealing.Pool
