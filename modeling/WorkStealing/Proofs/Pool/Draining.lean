import WorkStealing.Proofs.Pool.Stopping

namespace WorkStealing.Pool

variable {ι α : Type} {n : Nat}

section Resting

def Resting : RingThread ι α → Prop
  | .running _ (.busy ..) => False
  | _ => True

theorem Resting.actor {t : RingThread ι α} (h : Resting t) : (actor n t).2 = .away := by
  rcases t with ⟨c, ⟨place, top, below⟩ | ⟨slot, w⟩⟩ | ⟨c, r⟩
  · exact h.elim
  · rfl
  · rfl

theorem Stacked.worker_lt {i : Nat} {c : Call ι α} {place : Place} {b : Bool}
    {below : List (RingActivity ι α)} (h : Stacked n c place b below) (hc : c = .work i) :
    i < n := by
  induction h with
  | worker hi =>
    obtain rfl : _ = i := by simpa using hc
    exact hi
  | caller o => cases hc
  | run _ ih => exact ih hc
  | inline _ ih => exact ih hc

theorem Framed.worker_lt {i : Nat} {pt : RingPoint ι α} (h : Framed n (.work i) pt) : i < n := by
  rcases pt with ⟨place, top, below⟩ | ⟨slot, w⟩
  · cases top with
    | loop j l =>
      obtain rfl : i = j := by simpa using h.1
      exact h.2.2.2
    | run t r => exact Stacked.worker_lt h rfl
    | submit s => exact Stacked.worker_lt h rfl
    | shutdown u s => cases h.1
  · cases h

theorem Framed.resting {slot : Nat} {pt : RingPoint ι α} (h : Framed n (.await slot) pt) :
    Resting (.running (.await slot) pt) := by
  rcases pt with ⟨place, top, below⟩ | ⟨slot, w⟩
  · cases top with
    | loop i l => cases h.1
    | run t r => exact absurd (Stacked.call h) (by simp)
    | submit s => exact absurd (Stacked.call h) (by simp)
    | shutdown u s => cases h.1
  · trivial

theorem Framed.shutdown {u : Bool} {pt : RingPoint ι α} (h : Framed n (.shutdown u) pt) :
    ∃ s, pt = .busy .caller (.shutdown u s) [] := by
  rcases pt with ⟨place, top, below⟩ | ⟨slot, w⟩
  · cases top with
    | loop i l => cases h.1
    | run t r => exact absurd rfl (Stacked.ne_shutdown h u)
    | submit s => exact absurd rfl (Stacked.ne_shutdown h u)
    | shutdown u' s =>
      obtain ⟨hc, rfl, rfl⟩ := h
      cases hc
      exact ⟨s, rfl⟩
  · cases h

theorem Orderly.resting {k : RingCrew ι α} (h : Orderly n k)
    (hf : ∀ c pt, .running c pt ∈ k.threads → Framed n c pt)
    (hclosed : ∃ t ∈ k.threads, (threadCall t).closes)
    (hstop : ∀ j < n, k.state.phase? j = some .stopped) {u : RingThread ι α} (hu : u ∈ k.threads)
    (hopen : (threadCall u).closes = false) : Resting u := by
  obtain ⟨t, ht, hcloses⟩ := hclosed
  rcases u with ⟨c, pt⟩ | ⟨c, r⟩
  · cases c with
    | work i => exact absurd (hstop i (hf _ _ hu).worker_lt) (h.awake hu)
    | submit o => exact absurd (h.quiet t ht hcloses _ hu) (by simp [submitting])
    | shutdown u => cases hopen
    | await slot => exact (hf _ _ hu).resting
  · trivial

theorem Orderly.others {s : Rings ι α} {before after : List (RingThread ι α)} {t : RingThread ι α}
    (h : Orderly n ⟨s, before ++ t :: after⟩) (ht : (threadCall t).closes) :
    ∀ u ∈ before ++ after, (threadCall u).closes = false := by
  have hclosers := h.closers
  simp only [List.countP_append, List.countP_cons, ht, if_true] at hclosers
  have hzero : (before ++ after).countP (fun t => (threadCall t).closes) = 0 := by
    rw [List.countP_append]
    omega
  exact fun u hu => by simpa using List.countP_eq_zero.1 hzero u hu

theorem Orderly.after {s : Rings ι α} {before after : List (RingThread ι α)} {c : Call ι α}
    {pt : RingPoint ι α} (h : Orderly n ⟨s, before ++ .running c pt :: after⟩) {a : RingMove ι α}
    {t : RingThread ι α} (ht : t ∈ before ++ (a.land c).2 :: after) (hcloses : (threadCall t).closes) :
    (c.closes ∧ t = (a.land c).2) ∨
      (c.closes = false ∧ t ∈ before ++ .running c pt :: after) := by
  have hcall := congrArg Call.closes (threadCall_land c a)
  rcases hc : c.closes
  · refine .inr ⟨rfl, ?_⟩
    rcases List.mem_append.1 ht with ht | ht
    · exact List.mem_append_left _ ht
    · rcases List.mem_cons.1 ht with rfl | ht
      · rw [hcall, hc] at hcloses
        cases hcloses
      · exact List.mem_append_right _ (List.mem_cons_of_mem _ ht)
  · have hothers := h.others (t := .running c pt) hc
    refine .inl ⟨rfl, ?_⟩
    by_contra hne
    have hmem : t ∈ before ++ after := by
      rcases List.mem_append.1 ht with ht | ht
      · exact List.mem_append_left _ ht
      · exact List.mem_append_right _ ((List.mem_cons.1 ht).resolve_left hne)
    rw [hothers t hmem] at hcloses
    cases hcloses

theorem core_await [BEq ι] {s : Rings ι α} {slot : Nat} {w : ResultSlot.Await} {a : RingMove ι α}
    (ha : a ∈ Point.moves s (.await slot w)) : core a.state = core s := by
  cases Point.taken ha with
  | await d hz hd => cases d <;> rfl

end Resting

section Emptied

def Vacant (p : Rings ι α) (j : Nat) : Prop := ∀ r, (core p).queues[j]? = some r → r.isEmpty

def Shutdown.passed {D : Type} (n : Nat) : Shutdown D ι α → Nat
  | .drain i _ _ | .cancel i _ _ _ _ | .drop i _ _ => i
  | .report _ | .complete => n
  | _ => 0

def Emptied (n : Nat) (p : Rings ι α) : RingThread ι α → Prop
  | .running _ (.busy _ (.shutdown _ s) _) => ∀ j < n, j < s.passed n → Vacant p j
  | .finished (.shutdown _) _ => ∀ j < n, Vacant p j
  | _ => True

variable {p : Rings ι α} {cap : Nat} {f : Item ι α → Bool} {G : Nat → Ghost (Item ι α)}
  {submitted settled : Nat} {m : Multiset (Actor (Item ι α))}

theorem Shutdown.passed_discard {D : Type} (unwinding : Bool) (i : Nat) (t : Item ι α) (k : Nat) :
    (Shutdown.discard unwinding i t k : Shutdown D ι α).passed n = i := by
  unfold Shutdown.discard
  split <;> rfl

theorem Vacant.setQueue {i j : Nat} {r : Ring (Item ι α)} (h : Vacant p j) (hij : j ≠ i) :
    Vacant (p.setQueue i r) j := by
  intro q hq
  rw [core_setQueue, Core.setQueue, List.getElem?_set_ne (Ne.symm hij)] at hq
  exact h q hq

theorem Shutdown.emptied {s : Shutdown (Ring.Pop (Item ι α)) ι α} {unwinding : Bool}
    {a : TurnMove (Ring (Item ι α)) ι α (Shutdown (Ring.Pop (Item ι α)) ι α)} (hn : p.size = n)
    (hfirm : Firm n cap f (core p) G submitted settled ((none, s.view n) ::ₘ m))
    (hk : (s.view n).Knows cap G) (hj : s.Joined n p)
    (hm : (∀ j < n, p.phase? j = some .stopped) → ∀ b ∈ m, b.2 = .away)
    (hs : ∀ j < n, j < s.passed n → Vacant p j) (ha : a ∈ s.moves unwinding p) :
    Emptied n a.state ((Point.land .caller [] (a.map (.shutdown unwinding)) :
      RingMove ι α).land (.shutdown unwinding)).2 := by
  subst hn
  cases Shutdown.step ha with
  -- the queues passed before are not the one looked into
  | look hi hr h => exact fun j hj hji => (hs j hj hji).setQueue (Nat.ne_of_lt hji)
  | @miss i k r r' d hi hr h =>
    rw [Shutdown.view_of_lt hi] at hfirm hk
    intro j hjn hji
    rcases Nat.lt_succ_iff_lt_or_eq.1 hji with hji | rfl
    · exact (hs j hjn hji).setQueue (Nat.ne_of_lt hji)
    · have hstake : (View.away : View (Item ι α)).stake = fun _ => 0 := rfl
      obtain ⟨-, htracks, hrank⟩ := hfirm.missed hk hr h hstake rfl (fun _ => trivial) rfl
      intro q hq
      change (core (p.setQueue j r')).queues[j]? = some q at hq
      rw [core_setQueue, Core.setQueue,
        List.getElem?_set_self (List.getElem?_eq_some_iff.1 hr).1] at hq
      obtain rfl := Option.some.inj hq
      exact isEmpty_of_missed htracks hrank fun b hb => by rw [hm hj b hb]; rfl
  | find hi hr h =>
    intro j hjn hji
    rw [Shutdown.passed_discard] at hji
    exact (hs j hjn hji).setQueue (Nat.ne_of_lt hji)
  | drained hi => exact fun j hjn _ => hs j hjn (Nat.lt_of_lt_of_le hjn hi)
  | cancel _ _ | cancelled _ _ | drop | report _ | silent => exact hs
  | complete => exact fun j hj => hs j hj hj
  | _ => rintro j - ⟨⟩

theorem Emptied.keep {q : Rings ι α} {t : RingThread ι α} (h : Emptied n p t) (ht : Told n p t)
    (hq : (∀ j < n, p.phase? j = some .stopped) → core q = core p) : Emptied n q t := by
  have keep (hstop : ∀ j < n, p.phase? j = some .stopped) (j : Nat) (hv : Vacant p j) :
      Vacant q j := by
    rw [Vacant, hq hstop]
    exact hv
  rcases t with ⟨c, ⟨place, top, below⟩ | ⟨slot, w⟩⟩ | ⟨c, r⟩
  · cases top with
    | shutdown u s =>
      cases s with
      | begin => rintro j - ⟨⟩
      | mark i => rintro j - ⟨⟩
      | join waiting seen => rintro j - ⟨⟩
      | notify waiting k => rintro j - ⟨⟩
      | _ => exact fun j hj hp => keep ht j (h j hj hp)
    | _ => trivial
  · trivial
  · cases c with
    | shutdown u => exact fun j hj => keep ht j (h j hj)
    | _ => trivial

theorem emptied_of_open {t : RingThread ι α} (hf : ∀ c pt, t = .running c pt → Framed n c pt)
    (hopen : (threadCall t).closes = false) : Emptied n p t := by
  rcases t with ⟨c, ⟨place, top, below⟩ | ⟨slot, w⟩⟩ | ⟨c, r⟩
  · cases top with
    | shutdown u s =>
      obtain ⟨rfl, -⟩ := hf _ _ rfl
      cases hopen
    | _ => trivial
  · trivial
  · cases c with
    | shutdown u => cases hopen
    | _ => trivial

end Emptied

section Runs

variable [BEq ι] {c : Config} {cores : Nat} {p : Rings ι α} {log : Log ι α} {k : RingCrew ι α}

theorem run_emptied (hp : Pool.new c cores = .ok p)
    (h : Crew.Run calls (fun k c => Closes p.size k c) ⟨p, []⟩ log k) (hb : claims log < 2 ^ 63) :
    ∀ t ∈ k.threads, Emptied p.size k.state t := by
  induction h with
  | refl => simp
  | start _ d _ ih =>
    intro t ht
    rcases List.mem_append.1 ht with ht | ht
    · exact ih hb t ht
    · obtain rfl := List.mem_singleton.1 ht
      cases d with
      | shutdown u => rintro j - ⟨⟩
      | _ => trivial
  | move hr ha ih =>
    rename_i log s before after d pt a
    have hin (k : RingCrew ι α) (c : Call ι α) (hc : Closes p.size k c) := Closes.enters hc
    have hs' := (run_framed hin (hr.move ha)).2
    obtain ⟨hn, hs⟩ := run_framed hin hr
    have hb' := claims_lt (List.suffix_cons _ _) hb
    have horderly := run_orderly hp hr
    have hself : .running d pt ∈ before ++ .running d pt :: after := by simp
    intro t ht
    rw [Move.fst_land]
    by_cases hopen : (threadCall t).closes = false
    · exact emptied_of_open (fun c pt he => hs' c pt (he ▸ ht)) hopen
    have hcloses : (threadCall t).closes := by simpa using hopen
    rcases horderly.after ht hcloses with ⟨hd, rfl⟩ | ⟨hd, hold⟩
    · obtain ⟨u, rfl⟩ : ∃ u, d = .shutdown u := by
        cases d <;> first | exact ⟨_, rfl⟩ | cases hd
      obtain ⟨x, rfl⟩ := (hs _ pt hself).shutdown
      obtain ⟨G, hfirm, hk⟩ := run_firm hp hin hr hb' fun _ => true
      rw [Crew.total_split] at hfirm
      have hothers := horderly.others (t := .running (.shutdown u) _) hd
      have ha : a ∈ Point.moves s (.busy .caller (.shutdown u x) []) := ha
      cases Point.taken ha with
      | shutdown e he =>
        have hem := Shutdown.emptied hn hfirm (hk _ hself).2 (horderly.told _ hself)
          (fun hstop b hb => ?_) (ih hb' _ hself) he
        · cases e with
          | go q y => cases y <;> exact hem
          | done q o => exact hem
        · obtain ⟨v, hv, rfl⟩ := mem_total_share.1 hb
          refine (horderly.resting hs ⟨_, hself, hd⟩ hstop ?_ (hothers v hv)).actor
          rcases List.mem_append.1 hv with hv | hv <;> simp [hv]
    · refine (ih hb' t hold).keep (horderly.told t hold) fun hstop => ?_
      have hrest := horderly.resting hs ⟨t, hold, hcloses⟩ hstop hself hd
      cases pt with
      | busy place top below => exact hrest.elim
      | await slot w => exact core_await ha

end Runs

end WorkStealing.Pool
