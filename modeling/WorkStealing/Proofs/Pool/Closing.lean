import WorkStealing.Proofs.Pool.Draining
import WorkStealing.Proofs.Pool.Freeing
import WorkStealing.Proofs.Pool.LastTurn
import WorkStealing.Proofs.Pool.Ledger
import WorkStealing.Proofs.Pool.Passes

namespace WorkStealing.Pool

variable {ι α : Type} {n : Nat}

section Tallied

def Shutdown.Tallies {D : Type} (m : Nat) : Shutdown D ι α → Prop
  | .drain _ _ k | .cancel _ _ _ _ k | .drop _ _ k | .report k => m = k
  | .complete => True
  | _ => m = 0

def Tallied (m : Nat) : RingThread ι α → Prop
  | .running _ (.busy _ (.shutdown _ s) _) => s.Tallies m
  | _ => True

theorem tallied_of_open {m : Nat} {t : RingThread ι α}
    (hf : ∀ c pt, t = .running c pt → Framed n c pt) (hopen : (threadCall t).closes = false) :
    Tallied m t := by
  rcases t with ⟨c, ⟨place, top, below⟩ | ⟨slot, w⟩⟩ | ⟨c, r⟩
  · cases top with
    | shutdown u s =>
      obtain ⟨rfl, -⟩ := hf _ _ rfl
      cases hopen
    | _ => trivial
  · trivial
  · trivial

theorem dropped?_of_open {c : Call ι α} {pt : RingPoint ι α} {a : RingMove ι α}
    (hf : Framed n c pt) (hopen : c.closes = false) : (deed pt a).dropped? = none := by
  rcases pt with ⟨place, top, below⟩ | ⟨slot, w⟩
  · cases top with
    | loop i l => rfl
    | run t r => cases r <;> rfl
    | submit s => exact dropped?_submit s a
    | shutdown u s =>
      obtain ⟨rfl, -⟩ := hf
      cases hopen
  · rfl

theorem Shutdown.tallies_discard {D : Type} {m : Nat} (unwinding : Bool) (i : Nat) (t : Item ι α)
    (k : Nat) : (Shutdown.discard unwinding i t k : Shutdown D ι α).Tallies m ↔ m = k := by
  cases hslot : t.closure.slot? with
  | none => rw [discard_of_none hslot, Tallies]
  | some slot => rw [discard_of_slot hslot, Tallies]

theorem Shutdown.tallied {p : Rings ι α} {m : Nat} {s : Shutdown (Ring.Pop (Item ι α)) ι α}
    {unwinding : Bool}
    {a : TurnMove (Ring (Item ι α)) ι α (Shutdown (Ring.Pop (Item ι α)) ι α)}
    (hs : s.Tallies m) (ha : a ∈ s.moves unwinding p) :
    Tallied (m + s.deed.dropped?.toList.length) ((Point.land .caller []
      (a.map (.shutdown unwinding)) : RingMove ι α).land (.shutdown unwinding)).2 := by
  cases Shutdown.step ha with
  | find hi hr h => exact (Shutdown.tallies_discard unwinding _ _ _).2 hs
  | drop => exact congrArg (· + 1) hs
  | report _ | silent | complete => trivial
  | _ => exact hs

end Tallied

section Runs

variable [BEq ι] {c : Config} {cores : Nat} {p : Rings ι α} {log : Log ι α} {k : RingCrew ι α}

theorem run_tallied (hp : Pool.new c cores = .ok p)
    (h : Crew.Run calls (fun k c => Closes p.size k c) ⟨p, []⟩ log k) :
    (∀ t ∈ k.threads, Tallied (dropped log).length t) ∧
      ((∀ t ∈ k.threads, (threadCall t).closes = false) → (dropped log).length = 0) := by
  induction h with
  | refl => exact ⟨by simp, fun _ => rfl⟩
  | start _ d hd ih =>
    refine ⟨fun t ht => ?_, fun hall => ih.2 fun t ht => hall t (List.mem_append_left _ ht)⟩
    rcases List.mem_append.1 ht with ht | ht
    · exact ih.1 t ht
    · obtain rfl := List.mem_singleton.1 ht
      cases d with
      | shutdown u =>
        exact ih.2 fun t ht => by
          simpa using (Bool.and_eq_true_iff.1 (List.all_eq_true.1 hd t ht)).1
      | _ => trivial
  | move hr ha ih =>
    rename_i log s before after d pt a
    have hin (k : RingCrew ι α) (c : Call ι α) (hc : Closes p.size k c) := Closes.enters hc
    have hs' := (run_framed hin (hr.move ha)).2
    have hs := (run_framed hin hr).2
    have horderly := run_orderly hp hr
    have hself : .running d pt ∈ before ++ .running d pt :: after := by simp
    have hopen (hd : d.closes = false) :
        (dropped (⟨before.length, d, s, pt, a⟩ :: log)).length = (dropped log).length := by
      rw [dropped_cons, dropped?_of_open (hs d pt hself) hd]
      rfl
    refine ⟨fun t ht => ?_, fun hall => ?_⟩
    · by_cases hopen' : (threadCall t).closes = false
      · exact tallied_of_open (fun c pt he => hs' c pt (he ▸ ht)) hopen'
      have hcloses : (threadCall t).closes := by simpa using hopen'
      rcases horderly.after ht hcloses with ⟨hd, rfl⟩ | ⟨hd, hold⟩
      · obtain ⟨u, rfl⟩ : ∃ u, d = .shutdown u := by
          cases d <;> first | exact ⟨_, rfl⟩ | cases hd
        obtain ⟨x, rfl⟩ := (hs _ pt hself).shutdown
        have hdeed (b : RingMove ι α) :
            deed (.busy .caller (.shutdown u x) []) b = x.deed := by cases x <;> rfl
        have ha : a ∈ Point.moves s (.busy .caller (.shutdown u x) []) := ha
        cases Point.taken ha with
        | shutdown e he =>
          rw [dropped_cons, List.length_append, Nat.add_comm]
          have htallied := Shutdown.tallied (ih.1 _ hself) he
          dsimp only
          rw [hdeed]
          exact htallied
      · rw [hopen hd]
        exact ih.1 t hold
    · have hd : d.closes = false :=
        (congrArg Call.closes (threadCall_land d a)).symm.trans (hall _ (by simp))
      rw [hopen hd]
      refine ih.2 fun t ht => ?_
      rcases List.mem_append.1 ht with ht | ht
      · exact hall t (List.mem_append_left _ ht)
      · rcases List.mem_cons.1 ht with rfl | ht
        · exact hd
        · exact hall t (List.mem_append_right _ (List.mem_cons_of_mem _ ht))

theorem run_onward (hp : Pool.new c cores = .ok p)
    (h : Crew.Run calls (fun k c => Closes p.size k c) ⟨p, []⟩ log k) :
    ∀ e ∈ log, ∀ i, Onward (e.before.phase? i) (e.move.state.phase? i) := by
  induction h with
  | refl => simp
  | start _ _ _ ih => exact ih
  | move hr ha ih =>
    intro e he
    rcases List.mem_cons.1 he with rfl | he
    · obtain ⟨hn, hs⟩ := run_framed (fun k c hc => Closes.enters hc) hr
      exact (run_orderly hp hr).onward hn (hs _ _ (by simp)) ha
    · exact ih e he

theorem run_byWorker {allowed : RingCrew ι α → Call ι α → Prop}
    (hin : ∀ k c, allowed k c → Enters p.size c) (h : Crew.Run calls allowed ⟨p, []⟩ log k) :
    ∀ e ∈ log, ∀ t, executed? e.point = some t → ByWorker p.size e.call e.point t := by
  induction h with
  | refl => simp
  | start _ _ _ ih => exact ih
  | move hr ha ih =>
    intro e he
    rcases List.mem_cons.1 he with rfl | he
    · exact fun t => ((run_framed hin hr).2 _ _ (by simp)).byWorker
    · exact ih e he

end Runs

section Ended

def Shutdown.isOver {D : Type} : Shutdown D ι α → Bool
  | .report _ | .complete => true
  | _ => false

def Closed : RingThread ι α → Prop
  | .running (.shutdown _) (.busy _ (.shutdown _ s) _) => s.isOver
  | .finished (.shutdown _) _ => True
  | _ => False

structure Ended (n : Nat) (log : Log ι α) (k : RingCrew ι α) : Prop where
  joined : ∀ i < n, k.state.phase? i = some .stopped ∧ ∃ r, .finished (.work i) r ∈ k.threads
  empty : ∀ w ∈ k.state.workers, w.queue.isEmpty ∧ Holding.items w.queue = []
  byWorker : ∀ e ∈ log, ∀ t, executed? e.point = some t → ByWorker n e.call e.point t
  once : (queued log).Perm (executed log ++ dropped log)
  through : (ended log).Perm (begun log)
  recorded : (freed k.state.history).Perm ((submitted log).map fun t => t.closure.label)
  freed : (freedBy log).Perm ((submitted log).map Task.closure)

theorem Closed.closes {t : RingThread ι α} (h : Closed t) : (threadCall t).closes := by
  unfold Closed at h
  split at h
  · rfl
  · rfl
  · exact h.elim

theorem Closed.stopped {p : Rings ι α} {t : RingThread ι α} (h : Closed t) (ht : Told n p t) :
    ∀ j < n, p.phase? j = some .stopped := by
  unfold Closed at h
  split at h
  · rename_i s _
    cases s <;> first | exact ht | cases h
  · exact ht
  · exact h.elim

theorem Closed.vacant {p : Rings ι α} {t : RingThread ι α} (h : Closed t) (ht : Emptied n p t) :
    ∀ j < n, Vacant p j := by
  unfold Closed at h
  split at h
  · rename_i s _
    cases s <;> first | exact fun j hj => ht j hj hj | cases h
  · exact ht
  · exact h.elim

structure Through (n : Nat) (t : RingThread ι α) : Prop where
  view : (actor n t).2 = .away
  due : ∀ f, threadDue f t = 0
  working : ∀ f, threadWorking f t = 0

theorem Resting.through {t : RingThread ι α} (h : Resting t) : Through n t := by
  refine ⟨h.actor, fun f => ?_, fun f => ?_⟩
  all_goals
    rcases t with ⟨c, ⟨place, top, below⟩ | ⟨slot, w⟩⟩ | ⟨c, r⟩
    · exact h.elim
    · rfl
    · rfl

theorem Closed.through {t : RingThread ι α} (h : Closed t)
    (hf : ∀ c pt, t = .running c pt → Framed n c pt) : Through n t := by
  unfold Closed at h
  split at h
  · rename_i s below
    obtain ⟨-, -, rfl⟩ := hf _ _ rfl
    cases s <;> first | exact ⟨rfl, fun _ => rfl, fun _ => rfl⟩ | cases h
  · exact ⟨rfl, fun _ => rfl, fun _ => rfl⟩
  · exact h.elim

variable [BEq ι] {c : Config} {cores : Nat} {p : Rings ι α} {log : Log ι α} {k : RingCrew ι α}

theorem run_through (hp : Pool.new c cores = .ok p)
    (h : Crew.Run calls (fun k c => Closes p.size k c) ⟨p, []⟩ log k) {t : RingThread ι α}
    (ht : t ∈ k.threads) (hc : Closed t) : ∀ u ∈ k.threads, Through p.size u := by
  have horderly := run_orderly hp h
  have hs := (run_framed (fun k c hc => Closes.enters hc) h).2
  intro u hu
  by_cases hopen : (threadCall u).closes = false
  · exact (horderly.resting hs ⟨t, ht, hc.closes⟩ (hc.stopped (horderly.told t ht)) hu
      hopen).through
  · obtain rfl := eq_of_countP horderly.closers hu ht (by simpa using hopen) hc.closes
    exact hc.through fun c pt he => hs c pt (he ▸ hu)

theorem run_ended (hp : Pool.new c cores = .ok p)
    (h : Crew.Run calls (fun k c => Closes p.size k c) ⟨p, []⟩ log k) (hb : claims log < 2 ^ 63)
    {t : RingThread ι α} (ht : t ∈ k.threads) (hc : Closed t) : Ended p.size log k := by
  classical
  have hin (k : RingCrew ι α) (c : Call ι α) (hc : Closes p.size k c) := Closes.enters hc
  have horderly := run_orderly hp h
  have hthrough := run_through hp h ht hc
  have hstop := hc.stopped (horderly.told t ht)
  have hvacant := hc.vacant (run_emptied hp h hb t ht)
  have hsettled (f : Item ι α → Bool) :
      (begun log).countP f + (dropped log).countP f = (submitted log).countP f ∧
        ∀ r ∈ (core k.state).queues, r.isEmpty ∧ Holding.items r = [] := by
    obtain ⟨G, hfirm, -⟩ := run_firm hp hin h hb f
    refine hfirm.rest (fun a ha => ?_) fun q hq => ?_
    · obtain ⟨u, hu, rfl⟩ := mem_total_share.1 ha
      exact .inl (hthrough u hu).view
    · obtain ⟨r, hr⟩ : ∃ r, (core k.state).queues[q]? = some r :=
        ⟨_, List.getElem?_eq_getElem (hfirm.size.symm ▸ hq)⟩
      rw [(hfirm.rings q r hr).front_of_isEmpty (hvacant q hq r hr)]
      exact Nat.lt_irrefl _
  have hended (f : Item ι α → Bool) : (ended log).countP f = (begun log).countP f := by
    rw [run_working f h, Crew.total_eq_zero fun u hu => (hthrough u hu).working f, Nat.add_zero]
  have hqueued (f : Item ι α → Bool) :
      (queued log).countP f = (executed log).countP f + (dropped log).countP f := by
    have hbooks := run_books f hp hin h hb
    rw [Crew.total_eq_zero fun u hu => (hthrough u hu).due f] at hbooks
    have := (hsettled f).1
    omega
  have honce : (queued log).Perm (executed log ++ dropped log) := by
    refine List.perm_iff_count.2 fun x => ?_
    rw [List.count_append]
    exact hqueued (· == x)
  have hthrough : (ended log).Perm (begun log) := List.perm_iff_count.2 fun x => hended (· == x)
  have hsubmitted : (ended log ++ dropped log).Perm (submitted log) := by
    refine (hthrough.append_right _).trans (List.perm_iff_count.2 fun x => ?_)
    rw [List.count_append]
    exact (hsettled (· == x)).1
  have hfreed : (freedBy log).Perm ((submitted log).map Task.closure) :=
    (freedBy_perm log).trans (hsubmitted.map _)
  refine ⟨fun i hi => ⟨hstop i hi, horderly.left i (hstop i hi)⟩,
    fun w hw => (hsettled fun _ => true).2 _ (List.mem_map_of_mem hw), run_byWorker hin h, honce,
    hthrough, ?_, hfreed⟩
  rw [run_freed_new hp h]
  exact (hfreed.map Job.label).trans (.of_eq (List.map_map ..))

structure Closing (n : Nat) (log : Log ι α) (k : RingCrew ι α) : Prop where
  lastTurn : ∀ i, lateTurns i log ≤ 1
  passes : ∀ u place waiting below,
    ∀ a ∈ Point.moves k.state (.busy place (.shutdown u (.notify waiting .all)) below),
      asleep k ≤ posts a
  rescues : posted log < 2 ^ 63 → ∀ u place s below,
    .running (.shutdown u) (.busy place (.shutdown u s) below) ∈ k.threads →
    (∀ waiting m l, s ≠ .notify waiting (.post m (.release l))) →
    (∀ i pt, .running (.work i) pt ∈ k.threads → Asleep pt) →
    k.state.gate.semaphore.permits = 0 →
      ∃ g, k.state.gate.broadcast = some (g, asleep k) ∧ g.semaphore.permits = asleep k
  phases : ∀ e ∈ log, ∀ i, Onward (e.before.phase? i) (e.move.state.phase? i)
  frees : freed k.state.history = (freedBy log).map Job.label
  ended : claims log < 2 ^ 63 → ∀ t ∈ k.threads, Closed t → Ended n log k
  reported : claims log < 2 ^ 63 → ∀ u place m below,
    .running (.shutdown u) (.busy place (.shutdown u (.report m)) below) ∈ k.threads →
      m = (dropped log).length ∧ m + (executed log).length = (queued log).length

theorem run_closing (hp : Pool.new c cores = .ok p) (hn : p.size ≤ 2 ^ 63)
    (h : Crew.Run calls (fun k c => Closes p.size k c) ⟨p, []⟩ log k) : Closing p.size log k where
  lastTurn i := Nat.le_trans (Nat.le_add_right _ _) (run_lateTurns hp h i).1
  passes _ _ _ _ _ ha := run_passes hp hn h ha
  rescues hb _ _ _ _ ht hs hwork hz := run_rescues hp hn h hb ht hs hwork hz
  phases := run_onward hp h
  frees := run_freed_new hp h
  ended hb _ ht hc := run_ended hp h hb ht hc
  reported hb u place m below ht := by
    have htallied : (dropped log).length = m := (run_tallied hp h).1 _ ht
    have honce := (run_ended hp h hb ht rfl).once.length_eq
    rw [List.length_append] at honce
    exact ⟨htallied.symm, by omega⟩

/-- The worker sleeps, runs a task, and sleeps again. Two more tasks are queued, one of them boxed, and
the pool is shut down before it gets to them. -/
def curtain : List (Crew.Cue (Call Nat Unit)) :=
  .start (.work 0) :: List.replicate (α := Crew.Cue (Call Nat Unit)) 10 (.move 0 0) ++
    .start (ask 0) :: List.replicate (α := Crew.Cue (Call Nat Unit)) 13 (.move 1 0) ++
    List.replicate (α := Crew.Cue (Call Nat Unit)) 22 (.move 0 0) ++
    .start (.submit (.task 1 .large .nothing none)) ::
      List.replicate (α := Crew.Cue (Call Nat Unit)) 13 (.move 2 0) ++
    .start (ask 2) :: List.replicate (α := Crew.Cue (Call Nat Unit)) 12 (.move 3 0) ++
    .start (.shutdown false) :: List.replicate (α := Crew.Cue (Call Nat Unit)) 7 (.move 4 0) ++
    List.replicate (α := Crew.Cue (Call Nat Unit)) 5 (.move 0 0) ++
    List.replicate (α := Crew.Cue (Call Nat Unit)) 19 (.move 4 0)

theorem run_closing_curtain : ∃ (log : Log Nat Unit) (k : RingCrew Nat Unit),
    Pool.new narrow 0 = .ok alone ∧ alone.size ≤ 2 ^ 63 ∧
      Crew.Run calls (fun k c => Closes alone.size k c) ⟨alone, []⟩ log k ∧
      Closing alone.size log k ∧ claims log < 2 ^ 63 ∧ posted log < 2 ^ 63 ∧
      .finished (.shutdown false) (.left .returned) ∈ k.threads ∧ Ended alone.size log k ∧
      (executed log).length = 1 ∧ (dropped log).map Task.isInline = [true, false] ∧
      freed k.state.history = [.task 2, .task 1, .task 0] ∧ lateTurns 0 log = 0 := by
  have hnew : Pool.new narrow 0 = .ok alone := by rfl
  have hp : (Crew.play calls (Closes 1) curtain [] ⟨alone, []⟩).map (fun x =>
      (x.2.threads.getLast?, claims x.1, posted x.1, (executed x.1).length,
        (dropped x.1).map Task.isInline, freed x.2.state.history, lateTurns 0 x.1)) =
      some (some (.finished (.shutdown false) (.left .returned)), 3, 4, 1, [true, false],
        [.task 2, .task 1, .task 0], 0) := by rfl
  obtain ⟨log, k, hrun, hx⟩ := Crew.exists_run_of_play (fun _ _ h => h) hp
  obtain ⟨ht, hc, hposted, he, hd, hf, hl⟩ := by simpa only [Prod.mk.injEq] using hx
  have hsize : alone.size ≤ 2 ^ 63 := by decide
  have hclaims : claims log < 2 ^ 63 := by rw [hc]; decide
  have hmem := List.mem_of_getLast? ht
  have hclosing := run_closing hnew hsize hrun
  exact ⟨log, k, hnew, hsize, hrun, hclosing, hclaims, by rw [hposted]; decide, hmem,
    hclosing.ended hclaims _ hmem trivial, he, hd, hf, hl⟩

end Ended

end WorkStealing.Pool
