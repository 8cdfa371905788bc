import WorkStealing.Proofs.Pool.Conserve

namespace WorkStealing.Pool

variable {ι α : Type}

inductive Onward : Option Phase → Option Phase → Prop where
  | stay (a : Option Phase) : Onward a a
  | tell : Onward (some .running) (some .stopping)
  | stop : Onward (some .stopping) (some .stopped)

theorem Onward.stopped {b : Option Phase} (h : Onward (some .stopped) b) : b = some .stopped := by
  cases h
  rfl

theorem Onward.running {a : Option Phase} (h : Onward a (some .running)) : a = some .running := by
  cases h
  rfl

section Calls

def Call.closes : Call ι α → Bool
  | .shutdown _ => true
  | _ => false

def submitting : RingThread ι α → Bool
  | .running (.submit _) _ => true
  | _ => false

/-- Each worker is started once. The pool is shut down once, by nobody who is still submitting, and
nobody submits from then on. -/
def Closes (n : Nat) (k : RingCrew ι α) : Call ι α → Bool
  | .work i => decide (i < n) && k.threads.all fun t => (threadCall t).worker? != some i
  | .submit _ => k.threads.all fun t => !(threadCall t).closes
  | .shutdown _ => k.threads.all fun t => !(threadCall t).closes && !submitting t
  | .await _ => true

theorem Closes.enters {n : Nat} {k : RingCrew ι α} {c : Call ι α} (h : Closes n k c) :
    Enters n c := by
  cases c with
  | work i =>
    obtain ⟨hi, -⟩ := Bool.and_eq_true_iff.1 h
    exact hi
  | _ => rfl

theorem threadCall_land (c : Call ι α) (a : RingMove ι α) : threadCall (a.land c).2 = c := by
  cases a <;> rfl

end Calls

section Told

def Shutdown.Joined {D : Type} (n : Nat) (p : Rings ι α) : Shutdown D ι α → Prop
  | .begin | .mark _ => True
  | .join waiting seen => ∀ j < n, j ∈ waiting ∨ j ∈ seen ∨ p.phase? j = some .stopped
  | .notify waiting _ => ∀ j < n, j ∈ waiting ∨ p.phase? j = some .stopped
  | _ => ∀ j < n, p.phase? j = some .stopped

def Told (n : Nat) (p : Rings ι α) : RingThread ι α → Prop
  | .running _ (.busy _ (.loop i .stop) _) => p.phase? i ≠ some .running
  | .running _ (.busy _ (.shutdown _ s) _) => s.Joined n p
  | .finished (.shutdown _) _ => ∀ j < n, p.phase? j = some .stopped
  | _ => True

variable {n : Nat} {p q : Rings ι α} {c : Call ι α}

theorem Shutdown.Joined.mono {D : Type} {s : Shutdown D ι α} (h : s.Joined n p)
    (ho : ∀ j, Onward (p.phase? j) (q.phase? j)) : s.Joined n q := by
  have stopped (j : Nat) (h : p.phase? j = some .stopped) : q.phase? j = some .stopped :=
    (h ▸ ho j).stopped
  cases s with
  | begin => trivial
  | mark i => trivial
  | join waiting seen => exact fun j hj => (h j hj).imp_right (Or.imp_right (stopped j))
  | notify waiting k => exact fun j hj => (h j hj).imp_right (stopped j)
  | _ => exact fun j hj => stopped j (h j hj)

theorem Told.mono {t : RingThread ι α} (h : Told n p t)
    (ho : ∀ j, Onward (p.phase? j) (q.phase? j)) : Told n q t := by
  rcases t with ⟨c, ⟨place, top, below⟩ | ⟨slot, w⟩⟩ | ⟨c, r⟩
  · cases top with
    | loop i l =>
      cases l with
      | stop => exact fun hr => h ((hr ▸ ho i).running)
      | _ => trivial
    | shutdown unwinding s => exact Shutdown.Joined.mono h ho
    | _ => trivial
  · trivial
  · cases c with
    | shutdown unwinding => exact fun j hj => ((h j hj) ▸ ho j).stopped
    | _ => trivial

theorem Search.phase_of_stop {i : Nat} {s : Search (Ring.Pop (Item ι α)) ι α} {p' : Rings ι α}
    (ha : .done p' .stop ∈ s.moves i p) : p' = p ∧ p.phase? i ≠ some .running := by
  cases Search.step ha with
  | told h => exact ⟨rfl, h⟩

theorem Loop.told {i : Nat} {l : Loop (Ring.Pop (Item ι α)) ι α} {place : Place}
    {a : TurnMove (Ring (Item ι α)) ι α (Loop (Ring.Pop (Item ι α)) ι α)} (ha : a ∈ l.moves i p) :
    let a' : RingMove ι α := Point.land place [] (a.map (.loop i))
    Told n a'.state (a'.land (.work i)).2 := by
  cases Loop.step ha with
  | told h =>
    obtain ⟨rfl, hr⟩ := Search.phase_of_stop h
    exact hr
  | _ => trivial

theorem Shutdown.joined_discard {D : Type} (unwinding : Bool) (i : Nat) (t : Item ι α) (k : Nat) :
    (Shutdown.discard unwinding i t k : Shutdown D ι α).Joined n p ↔
      ∀ j < n, p.phase? j = some .stopped := by
  unfold Shutdown.discard
  split <;> rfl

theorem Shutdown.told {s : Shutdown (Ring.Pop (Item ι α)) ι α} {unwinding : Bool} {place : Place}
    {a : TurnMove (Ring (Item ι α)) ι α (Shutdown (Ring.Pop (Item ι α)) ι α)} (hn : p.size = n)
    (hs : s.Joined n p) (ho : ∀ j, Onward (p.phase? j) (a.state.phase? j))
    (ha : a ∈ s.moves unwinding p) :
    let a' : RingMove ι α := Point.land place [] (a.map (.shutdown unwinding))
    Told n a'.state (a'.land (.shutdown unwinding)).2 := by
  replace hs : s.Joined n a.state := hs.mono ho
  cases Shutdown.step ha with
  | begin | tell _ _ | skip _ _ => trivial
  | marked hi => exact fun j hj => .inl (List.mem_range.2 (hn.symm ▸ hj))
  | joined => exact fun j hj => (hs j hj).resolve_left (by simp) |>.resolve_left (by simp)
  | call => exact fun j hj => (hs j hj).resolve_left (by simp)
  | join h =>
    intro a' j hj
    rcases hs j hj with hw | hseen | hstop
    · rcases List.mem_cons.1 hw with rfl | hw
      · exact .inr (.inr h)
      · exact .inl hw
    · exact .inr (.inl hseen)
    · exact .inr (.inr hstop)
  | see h =>
    intro a' j hj
    rcases hs j hj with hw | hseen | hstop
    · rcases List.mem_cons.1 hw with rfl | hw
      · exact .inr (.inl (by simp))
      · exact .inl hw
    · exact .inr (.inl (List.mem_append_left _ hseen))
    · exact .inr (.inr hstop)
  | notified h => exact fun j hj => (hs j hj).imp_right .inr
  | find hi hr h => exact (Shutdown.joined_discard unwinding _ _ _).2 hs
  | _ => exact hs

theorem told_of_sane {a : RingMove ι α} (h : a.read (Sane n c) fun _ => ∀ i, c ≠ .work i)
    (hc : ∀ u, c ≠ .shutdown u) : Told n a.state (a.land c).2 := by
  rcases a with ⟨q, ⟨place, top, below⟩ | ⟨slot, w⟩⟩ | ⟨q, r⟩
  · cases top with
    | loop i l =>
      cases l with
      | stop => exact h.2.2.2.2.elim
      | _ => trivial
    | shutdown unwinding s => exact h.elim
    | _ => trivial
  · trivial
  · cases c with
    | shutdown u => exact absurd rfl (hc u)
    | _ => trivial

theorem Stacked.ne_shutdown {place : Place} {b : Bool} {below : List (RingActivity ι α)}
    (h : Stacked n c place b below) (unwinding : Bool) : c ≠ .shutdown unwinding := by
  rcases h.call with ⟨i, rfl⟩ | ⟨o, rfl⟩ <;> simp

variable [BEq ι] {pt : RingPoint ι α} {a : RingMove ι α}

theorem Point.onward (hn : p.size = n) (hs : Framed n c pt) (ht : Told n p (.running c pt))
    (hc : ∀ i, c = .work i → p.phase? i ≠ some .stopped) (ha : a ∈ pt.moves p) (j : Nat) :
    Onward (p.phase? j) (a.state.phase? j) := by
  rw [← core_phase?, ← core_phase?]
  rcases (Point.shifts hn hs ha).1 with he | he
  · rw [he.phases]
    exact .stay _
  · generalize core a.state = x at he
    cases he with
    | @stop i q =>
      rw [Core.setPhase, List.getElem?_set]
      split
      · rename_i hij
        subst hij
        have hrunning : p.phase? i ≠ some .running := ht
        have hstopped := hc i rfl
        have hi : i < (core p).phases.length := by
          rw [core, List.length_map]
          exact Nat.lt_of_lt_of_eq hs.2.2.2 hn.symm
        rw [← core_phase?, List.getElem?_eq_getElem hi] at hrunning hstopped
        rw [if_pos hi, List.getElem?_eq_getElem hi]
        cases h : (core p).phases[i] with
        | running => exact absurd (congrArg some h) hrunning
        | stopping => exact .stop
        | stopped => exact absurd (congrArg some h) hstopped
      · exact .stay _
    | tell hphase =>
      rw [Core.setPhase, List.getElem?_set]
      split
      · rename_i hij
        subst hij
        rw [hphase, if_pos (List.getElem?_eq_some_iff.1 hphase).1]
        exact .tell
      · exact .stay _

theorem Point.told (hn : p.size = n) (hs : Framed n c pt) (ht : Told n p (.running c pt))
    (ho : ∀ j, Onward (p.phase? j) (a.state.phase? j)) (ha : a ∈ pt.moves p) :
    Told n a.state (a.land c).2 := by
  cases Point.taken ha with
  | loop d hd =>
    obtain ⟨rfl, -, rfl, -⟩ := hs
    exact Loop.told hd
  | run d hd => exact told_of_sane (Run.land hs hd).2 (Stacked.ne_shutdown hs)
  | submit d hd => exact told_of_sane (Submit.land hn hs hd).2 (Stacked.ne_shutdown hs)
  | shutdown d hd =>
    obtain ⟨rfl, -, rfl⟩ := hs
    refine Shutdown.told hn ht (fun j => ?_) hd
    have := ho j
    cases d with
    | go q x => cases x <;> exact this
    | done q o => exact this
  | @await slot w z d hz hd =>
    obtain rfl : c = .await slot := hs
    cases d <;> trivial

end Told

section Runs

structure Orderly (n : Nat) (k : RingCrew ι α) : Prop where
  workers : ∀ i, k.threads.countP (fun t => (threadCall t).worker? == some i) ≤ 1
  closers : k.threads.countP (fun t => (threadCall t).closes) ≤ 1
  quiet : ∀ t ∈ k.threads, (threadCall t).closes → ∀ u ∈ k.threads, submitting u = false
  left : ∀ i, k.state.phase? i = some .stopped → ∃ r, .finished (.work i) r ∈ k.threads
  told : ∀ t ∈ k.threads, Told n k.state t

theorem eq_of_countP {X : Type} {f : X → Bool} {l : List X} (h : l.countP f ≤ 1) {x y : X}
    (hx : x ∈ l) (hy : y ∈ l) (hfx : f x) (hfy : f y) : x = y := by
  obtain ⟨s, t, rfl⟩ := List.mem_iff_append.1 hx
  rw [List.countP_append, List.countP_cons_of_pos hfx] at h
  have hs : s.countP f = 0 := by omega
  have ht : t.countP f = 0 := by omega
  rcases List.mem_append.1 hy with hy | hy
  · exact absurd hfy (List.countP_eq_zero.1 hs y hy)
  · rcases List.mem_cons.1 hy with rfl | hy
    · rfl
    · exact absurd hfy (List.countP_eq_zero.1 ht y hy)

variable {n : Nat}

theorem Orderly.awake {k : RingCrew ι α} (h : Orderly n k) {i : Nat} {pt : RingPoint ι α}
    (ht : .running (.work i) pt ∈ k.threads) : k.state.phase? i ≠ some .stopped := by
  intro hs
  obtain ⟨r, hr⟩ := h.left i hs
  have := eq_of_countP (h.workers i) ht hr (by simp [threadCall, Call.worker?])
    (by simp [threadCall, Call.worker?])
  cases this

theorem Orderly.start [BEq ι] {k : RingCrew ι α} (h : Orderly n k) {c : Call ι α}
    (hc : Closes n k c) : Orderly n (k.start calls c) := by
  have hcount (f : Call ι α → Bool) : (k.start calls c).threads.countP (fun t => f (threadCall t)) =
      k.threads.countP (fun t => f (threadCall t)) + (f c).toNat := by
    cases hf : f c <;> simp [Crew.start, threadCall, hf]
  refine ⟨fun i => ?_, ?_, ?_, fun i hi => ?_, fun t ht => ?_⟩
  · rw [hcount fun d => d.worker? == some i]
    cases hi : c.worker? == some i with
    | false => exact h.workers i
    | true =>
      cases c with
      | work j =>
        obtain rfl : j = i := by simpa [Call.worker?] using hi
        obtain ⟨-, hall⟩ := Bool.and_eq_true_iff.1 hc
        have hz : k.threads.countP (fun t => (threadCall t).worker? == some j) = 0 :=
          List.countP_eq_zero.2 fun t ht => by simpa using List.all_eq_true.1 hall t ht
        simp [hz]
      | _ => simp [Call.worker?] at hi
  · rw [hcount Call.closes]
    cases c with
    | shutdown u =>
      have hz : k.threads.countP (fun t => (threadCall t).closes) = 0 :=
        List.countP_eq_zero.2 fun t ht => by
          simpa using (Bool.and_eq_true_iff.1 (List.all_eq_true.1 hc t ht)).1
      rw [hz]
      exact le_rfl
    | _ => exact h.closers
  · intro t ht hcloses u hu
    rcases List.mem_append.1 ht with hold | hnew <;> rcases List.mem_append.1 hu with hold' | hnew'
    · exact h.quiet t hold hcloses u hold'
    · obtain rfl := List.mem_singleton.1 hnew'
      cases c with
      | submit o => simpa [hcloses] using List.all_eq_true.1 hc t hold
      | _ => rfl
    · obtain rfl := List.mem_singleton.1 hnew
      cases c with
      | shutdown d => simpa using (Bool.and_eq_true_iff.1 (List.all_eq_true.1 hc u hold')).2
      | _ => cases hcloses
    · obtain rfl := List.mem_singleton.1 hnew
      obtain rfl := List.mem_singleton.1 hnew'
      cases c <;> first | rfl | cases hcloses
  · obtain ⟨r, hr⟩ := h.left i hi
    exact ⟨r, List.mem_append_left _ hr⟩
  · rcases List.mem_append.1 ht with ht | ht
    · exact h.told t ht
    · obtain rfl := List.mem_singleton.1 ht
      cases c <;> trivial

variable [BEq ι] {s : Rings ι α} {before after : List (RingThread ι α)} {c : Call ι α}
  {pt : RingPoint ι α} {a : RingMove ι α}

theorem Orderly.onward (h : Orderly n ⟨s, before ++ .running c pt :: after⟩) (hn : s.size = n)
    (hs : Framed n c pt) (ha : a ∈ pt.moves s) (j : Nat) :
    Onward (s.phase? j) (a.state.phase? j) := by
  have hmem : .running c pt ∈ before ++ .running c pt :: after := by simp
  refine Point.onward hn hs (h.told _ hmem) (fun i hc => ?_) ha j
  subst hc
  exact h.awake hmem

theorem Orderly.move (h : Orderly n ⟨s, before ++ .running c pt :: after⟩) (hn : s.size = n)
    (hs : Framed n c pt) (ha : a ∈ pt.moves s) :
    Orderly n ⟨(a.land c).1, before ++ (a.land c).2 :: after⟩ := by
  have ho := h.onward hn hs ha
  have hcall := threadCall_land c a
  have hcount (f : Call ι α → Bool) :
      (before ++ (a.land c).2 :: after).countP (fun t => f (threadCall t)) =
        (before ++ .running c pt :: after).countP (fun t => f (threadCall t)) := by
    simp only [List.countP_append, List.countP_cons, hcall]
    rfl
  -- whoever is there after the step was there before, or is the one that moved
  have hmem {t : RingThread ι α} (ht : t ∈ before ++ (a.land c).2 :: after) :
      t = (a.land c).2 ∨ t ∈ before ++ .running c pt :: after := by
    rcases List.mem_append.1 ht with ht | ht
    · exact .inr (by simp [ht])
    · exact (List.mem_cons.1 ht).imp_right fun ht => by simp [ht]
  have hself : .running c pt ∈ before ++ .running c pt :: after := by simp
  refine ⟨fun i => ?_, ?_, ?_, ?_, ?_⟩
  · rw [hcount fun d => d.worker? == some i]
    exact h.workers i
  · rw [hcount Call.closes]
    exact h.closers
  · intro t ht hcloses u hu
    have hold : ∃ t ∈ before ++ .running c pt :: after, (threadCall t).closes := by
      rcases hmem ht with rfl | ht
      · exact ⟨_, hself, by rwa [hcall] at hcloses⟩
      · exact ⟨t, ht, hcloses⟩
    obtain ⟨t, ht, hcloses⟩ := hold
    rcases hmem hu with rfl | hu
    · have := h.quiet t ht hcloses _ hself
      cases c <;> cases a <;> first | rfl | cases this
    · exact h.quiet t ht hcloses u hu
  · intro i hi
    rw [Move.fst_land] at hi
    by_cases hp : s.phase? i = some .stopped
    · obtain ⟨r, hr⟩ := h.left i hp
      refine ⟨r, ?_⟩
      rcases List.mem_append.1 hr with hr | hr
      · exact List.mem_append_left _ hr
      · rcases List.mem_cons.1 hr with hr | hr
        · cases hr
        · exact List.mem_append_right _ (List.mem_cons_of_mem _ hr)
    · rw [← core_phase?] at hp hi
      rcases (Point.shifts hn hs ha).1 with he | he
      · rw [he.phases] at hi
        exact absurd hi hp
      · generalize core a.state = x at he hi
        cases he with
        | @stop j q =>
          rw [Core.setPhase, List.getElem?_set] at hi
          split at hi
          · rename_i hij
            subst hij
            exact ⟨_, List.mem_append_right _ List.mem_cons_self⟩
          · exact absurd hi hp
        | tell hphase =>
          rw [Core.setPhase, List.getElem?_set] at hi
          split at hi
          · split at hi <;> cases hi
          · exact absurd hi hp
  · intro t ht
    rw [Move.fst_land]
    rcases hmem ht with rfl | ht
    · exact Point.told hn hs (h.told _ hself) ho ha
    · exact (h.told t ht).mono ho

variable {c : Config} {cores : Nat} {p : Rings ι α} {log : Log ι α} {k : RingCrew ι α}

theorem run_orderly (hp : Pool.new c cores = .ok p)
    (h : Crew.Run calls (fun k c => Closes p.size k c) ⟨p, []⟩ log k) : Orderly p.size k := by
  induction h with
  | refl =>
    refine ⟨by simp, by simp, by simp, fun i hi => ?_, by simp⟩
    obtain ⟨-, r, -, hcore⟩ := new_ok hp
    rw [← core_phase?, hcore] at hi
    have := List.mem_of_getElem? hi
    simp at this
  | start _ d hd ih => exact ih.start hd
  | move hr ha ih =>
    obtain ⟨hn, hs⟩ := run_framed (fun k c hc => Closes.enters hc) hr
    exact ih.move hn (hs _ _ (by simp)) ha

end Runs

end WorkStealing.Pool
