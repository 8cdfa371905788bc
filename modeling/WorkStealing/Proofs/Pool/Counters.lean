import WorkStealing.Proofs.Pool.Once

namespace WorkStealing.Pool

variable {ι α : Type}

section Sums

attribute [ext] Stats

instance : Zero Stats := ⟨{}⟩

theorem Stats.add_eq (a b : Stats) : a + b =
    ⟨a.semaphorePosts + b.semaphorePosts, a.semaphoreWaits + b.semaphoreWaits,
      a.trySteals + b.trySteals, a.steals + b.steals, a.tasksRun + b.tasksRun,
      a.panics + b.panics⟩ := rfl

instance : AddCommMonoid Stats where
  add_assoc a b c := by
    ext <;> exact Nat.add_assoc _ _ _
  zero_add a := by
    ext <;> exact Nat.zero_add _
  add_zero a := rfl
  add_comm a b := by
    ext <;> exact Nat.add_comm _ _
  nsmul := nsmulRec

theorem stats_eq (p : Rings ι α) : p.stats =
    { semaphorePosts := p.semaphorePosts } + (p.workers.map Worker.counters).sum := by
  have hfold (ws : List (Worker (Ring (Item ι α)))) (s : Stats) :
      ws.foldl (fun total w => total + w.counters) s = s + (ws.map Worker.counters).sum := by
    induction ws generalizing s with
    | nil => exact (add_zero s).symm
    | cons w ws ih => rw [List.foldl_cons, ih, List.map_cons, List.sum_cons, add_assoc]
  exact hfold _ _

theorem stats_modify (p : Rings ι α) (i : Nat)
    {g : Worker (Ring (Item ι α)) → Worker (Ring (Item ι α))}
    (hg : ∀ w, (g w).counters = w.counters) : (p.modify i g).stats = p.stats := by
  rw [stats_eq, stats_eq, modify, map_modify_eq hg]

theorem stats_setQueue (p : Rings ι α) (i : Nat) (r : Ring (Item ι α)) :
    (p.setQueue i r).stats = p.stats := stats_modify p i fun _ => rfl

theorem stats_setHeld (p : Rings ι α) (i : Nat) (held : Bool) :
    (p.setHeld i held).stats = p.stats := stats_modify p i fun _ => rfl

theorem stats_post (p : Rings ι α) (k : Nat) :
    ({ p with semaphorePosts := p.semaphorePosts + k } : Rings ι α).stats =
      p.stats + { semaphorePosts := k } := by
  rw [stats_eq, stats_eq]
  exact add_right_comm (⟨p.semaphorePosts, 0, 0, 0, 0, 0⟩ : Stats) ⟨k, 0, 0, 0, 0, 0⟩ _

theorem sum_modify {X : Type} {l : List X} {f : X → Stats} {g : X → X} {s : Stats} {i : Nat}
    (hg : ∀ x, f (g x) = f x + s) (hi : i < l.length) :
    ((l.modify i g).map f).sum = (l.map f).sum + s := by
  induction l generalizing i with
  | nil => exact absurd hi (Nat.not_lt_zero i)
  | cons x l ih =>
    cases i with
    | zero =>
      rw [List.modify_zero_cons, List.map_cons, List.sum_cons, hg, List.map_cons, List.sum_cons,
        add_right_comm]
    | succ i =>
      rw [List.modify_succ_cons, List.map_cons, List.sum_cons, ih (Nat.lt_of_succ_lt_succ hi),
        List.map_cons, List.sum_cons, add_assoc]

theorem stats_bump {p : Rings ι α} {i : Nat} {f : Stats → Stats} {s : Stats} (hi : i < p.size)
    (hf : ∀ c, f c = c + s) : (p.bump i f).stats = p.stats + s := by
  rw [stats_eq, stats_eq, bump, modify, sum_modify (fun w => hf w.counters) hi, add_assoc]

end Sums

section Notes

def Event.isMove : Event ι → Bool
  | .queued .. | .taken .. => true
  | _ => false

def moved (h : List (Event ι)) : List (Event ι) := h.filter Event.isMove

def Event.stolen? : Event ι → Option (Label ι)
  | .taken t thief owner => if thief = owner then none else some t
  | _ => none

def Event.queuedTo? (w : Nat) : Event ι → Option (Label ι)
  | .queued t v => if v = w then some t else none
  | _ => none

def Event.takenFrom? (w : Nat) : Event ι → Option (Label ι)
  | .taken t _ owner => if owner = w then some t else none
  | _ => none

def stolen (h : List (Event ι)) : List (Label ι) := h.filterMap Event.stolen?

def queuedTo (w : Nat) (h : List (Event ι)) : List (Label ι) := h.filterMap (Event.queuedTo? w)

def takenFrom (w : Nat) (h : List (Event ι)) : List (Label ι) := h.filterMap (Event.takenFrom? w)

theorem filterMap_moved {X : Type} {f : Event ι → Option X}
    (hf : ∀ e, e.isMove = false → f e = none) (h : List (Event ι)) :
    (moved h).filterMap f = h.filterMap f := by
  rw [moved, List.filterMap_filter]
  refine List.filterMap_congr fun e _ => ?_
  cases he : e.isMove
  · exact (hf e he).symm
  · rfl

theorem stolen_moved (h : List (Event ι)) : stolen (moved h) = stolen h :=
  filterMap_moved (fun e he => by cases e <;> first | rfl | cases he) h

theorem queuedTo_moved (w : Nat) (h : List (Event ι)) : queuedTo w (moved h) = queuedTo w h :=
  filterMap_moved (fun e he => by cases e <;> first | rfl | cases he) h

theorem takenFrom_moved (w : Nat) (h : List (Event ι)) : takenFrom w (moved h) = takenFrom w h :=
  filterMap_moved (fun e he => by cases e <;> first | rfl | cases he) h

/-- What thread `i` notes in a step, by what it is about before it and after it. -/
def noted (i : Nat) : View (Item ι α) → View (Item ι α) → List (Event ι)
  | .push t w _ _ _, .placed _ => [.queued t.closure.label w]
  | .pop w _ _, .hold t _ => [.taken t.closure.label i w]
  | _, _ => []

end Notes

/-- Whether a step takes a permit, or puts itself down for the next one. -/
def View.draws {β : Type} : View β → Nat
  | .committed _ => 1
  | _ => 0

/-- What a step is worth in the counters, `outcomes` being that of the task that a worker ends in
it. -/
def earned (i : Nat) (v v' : View (Item ι α)) (outcomes : List Outcome) (tries : Nat) : Stats :=
  { semaphorePosts := v.adds
    semaphoreWaits := v.draws
    trySteals := tries
    steals := (stolen (noted i v v')).length
    tasksRun := outcomes.length
    panics := outcomes.countP Outcome.isPanic }

/-- What a thread has yet to count, and how many tries it has counted whose end is open. -/
abbrev Dues := Stats × Nat

structure Booked (i : Nat) (p p' : Rings ι α) (v v' : View (Item ι α)) (outcomes : List Outcome)
    (x x' : Dues) : Prop where
  policy : p'.panicPolicy = p.panicPolicy
  moved : moved p'.history = noted i v v' ++ moved p.history
  sheet : ∃ tries, p'.stats + x'.1 = p.stats + x.1 + earned i v v' outcomes tries ∧
    (stolen (noted i v v')).length + x'.2 ≤ tries + x.2

section Worker

variable {p p' : Rings ι α} {i n : Nat} {v v' : View (Item ι α)}

theorem Booked.of_eq {x : Dues} (hpolicy : p'.panicPolicy = p.panicPolicy)
    (hmoved : Pool.moved p'.history = Pool.moved p.history) (hstats : p'.stats = p.stats)
    (hnoted : noted i v v' = []) (hv : v.adds = 0 ∧ v.draws = 0) : Booked i p p' v v' [] x x := by
  have hearned : earned i v v' [] 0 = 0 := by
    rw [earned, hnoted, hv.1, hv.2]
    rfl
  refine ⟨hpolicy, ?_, 0, ?_, ?_⟩
  · rw [hnoted, hmoved, List.nil_append]
  · rw [hstats, hearned, add_zero]
  · rw [hnoted]
    exact le_rfl

theorem Booked.of_noted {u : View (Item ι α)} {outcomes : List Outcome} {x x' : Dues}
    (h : Booked i p p' v v' outcomes x x') (hu : noted i v u = noted i v v') :
    Booked i p p' v u outcomes x x' := by
  refine ⟨h.policy, ?_, ?_⟩
  · rw [hu, h.moved]
  · simp only [earned, hu]
    exact h.sheet

theorem Booked.notes {X : Type} {f : Event ι → Option X} {outcomes : List Outcome} {x x' : Dues}
    (h : Booked i p p' v v' outcomes x x')
    (hf : ∀ l, (Pool.moved l).filterMap f = l.filterMap f) :
    p'.history.filterMap f = (noted i v v').filterMap f ++ p.history.filterMap f := by
  rw [← hf p'.history, h.moved, List.filterMap_append, hf]

theorem Booked.bump {f : Stats → Stats} {s : Stats} {x x' : Dues} {k : Nat} (hi : i < p.size)
    (hf : ∀ c, f c = c + s) (hnoted : noted i v v' = [])
    (hsheet : s + x'.1 = x.1 + earned i v v' [] k) (htries : x'.2 ≤ k + x.2) :
    Booked i p (p.bump i f) v v' [] x x' := by
  refine ⟨rfl, ?_, k, ?_, ?_⟩
  · rw [hnoted]
    rfl
  · rw [stats_bump hi hf, add_assoc, hsheet, add_assoc]
  · rw [hnoted]
    exact (Nat.zero_add _).trans_le htries

theorem ne_add_mod {o : Nat} (hi : i < n) (h0 : 0 < o) (ho : o < n) : i ≠ (i + o) % n := by
  rcases Nat.lt_or_ge (i + o) n with h | h
  · rw [Nat.mod_eq_of_lt h]
    omega
  · rw [Nat.mod_eq_sub_mod h, Nat.mod_eq_of_lt (by omega)]
    omega

def Steal.dues : Steal (Ring.Pop (Item ι α)) ι α → Dues
  | .next _ => 0
  | .try _ _ => (0, 1)
  | .count _ => ({ steals := 1 }, 0)

def Steal.Regular (n : Nat) : Steal (Ring.Pop (Item ι α)) ι α → Prop
  | .next o => 0 < o
  | .try o _ => 0 < o ∧ o < n
  | .count _ => True

theorem Steal.booked (nap : Bool) {s : Steal (Ring.Pop (Item ι α)) ι α}
    {a : Move (Rings ι α) (Steal (Ring.Pop (Item ι α)) ι α) (Option (Item ι α))}
    (hn : p.size = n) (hi : i < n) (hs : s.Regular n) (ha : a ∈ s.moves i p) :
    Booked i p a.state (s.view i n nap) (a.read (Steal.view i n nap) (Steal.outcome i nap)) []
      s.dues (a.read Steal.dues fun _ => 0) ∧ a.read (Steal.Regular n) fun _ => True := by
  subst hn
  cases Steal.step ha with
  | aim ho =>
    refine ⟨?_, hs, ho⟩
    cases nap <;> exact .bump hi (s := { trySteals := 1 }) (k := 1) (fun _ => rfl) rfl rfl le_rfl
  | exhaust _ => cases nap <;> exact ⟨.of_eq rfl rfl rfl rfl ⟨rfl, rfl⟩, trivial⟩
  | look hr h => exact ⟨.of_eq rfl rfl (stats_setQueue _ _ _) rfl ⟨rfl, rfl⟩, hs⟩
  | @miss o r r' d hr h =>
    refine ⟨⟨rfl, by cases nap <;> rfl, 0, ?_, by cases nap <;> exact Nat.zero_le _⟩,
      Nat.succ_pos o⟩
    rw [Move.state, stats_setQueue]
    cases nap <;> rfl
  | @find o r r' d pos t hr h =>
    have hstolen : (stolen [Event.taken t.closure.label i ((i + o) % p.size)]).length = 1 := by
      simp [stolen, Event.stolen?, ne_add_mod hi hs.1 hs.2]
    refine ⟨⟨rfl, rfl, 0, ?_, hstolen.le⟩, trivial⟩
    change (p.setQueue _ r').stats + _ = _
    rw [stats_setQueue]
    change _ = p.stats + 0 + ⟨0, 0, 0, (stolen [_]).length, 0, 0⟩
    rw [hstolen]
    rfl
  | count => exact ⟨.bump hi (s := { steals := 1 }) (fun _ => rfl) rfl rfl le_rfl, trivial⟩

theorem Booked.took {d : Ring.Pop (Item ι α)} {nap : Option (Nat × Nat)} {t : Item ι α} {b : Bool}
    (hpolicy : p'.panicPolicy = p.panicPolicy)
    (hmoved : Pool.moved p'.history = .taken t.closure.label i i :: Pool.moved p.history)
    (hstats : p'.stats = p.stats) : Booked i p p' (.pop i d nap) (.hold t b) [] 0 0 := by
  have hstolen : stolen [Event.taken t.closure.label i i] = [] := by
    simp [stolen, Event.stolen?]
  refine ⟨hpolicy, hmoved, 0, ?_, ?_⟩
  · change _ = p.stats + 0 + ⟨0, 0, 0, (stolen [_]).length, 0, 0⟩
    rw [hstats, hstolen]
    rfl
  · change (stolen [_]).length + 0 ≤ _
    rw [hstolen]
    exact le_rfl

def Recheck.dues : Recheck (Ring.Pop (Item ι α)) ι α → Dues
  | .steal s => s.dues
  | _ => 0

def Recheck.Regular (n : Nat) : Recheck (Ring.Pop (Item ι α)) ι α → Prop
  | .steal s => s.Regular n
  | _ => True

theorem Recheck.booked {k : Recheck (Ring.Pop (Item ι α)) ι α}
    {a : Move (Rings ι α) (Recheck (Ring.Pop (Item ι α)) ι α) (Option (Finding ι α))}
    (hn : p.size = n) (hi : i < n) (hk : k.Regular n) (ha : a ∈ k.moves i p) :
    Booked i p a.state (k.view i n) (a.read (Recheck.view i n) (Recheck.outcome i)) [] k.dues
      (a.read Recheck.dues fun _ => 0) ∧ a.read (Recheck.Regular n) fun _ => True := by
  cases Recheck.step ha with
  | begin _ | told _ => exact ⟨.of_eq rfl rfl rfl rfl ⟨rfl, rfl⟩, trivial⟩
  | look hr h => exact ⟨.of_eq rfl rfl (stats_setQueue _ _ _) rfl ⟨rfl, rfl⟩, trivial⟩
  | miss hr h => exact ⟨.of_eq rfl rfl (stats_setQueue _ _ _) rfl ⟨rfl, rfl⟩, Nat.one_pos⟩
  | find hr h => exact ⟨.took rfl rfl (stats_setQueue p i _), trivial⟩
  | steal h | stolen h | exhaust h => exact Steal.booked true hn hi hk h

def sleepDues : Gate.Sleep (Recheck (Ring.Pop (Item ι α)) ι α) (Finding ι α) → Dues
  | .recheck k => k.dues
  | .wait .acquire | .wake => ({ semaphoreWaits := 1 }, 0)
  | _ => 0

def sleepDebt : Option (Finding ι α) → Dues
  | some _ => 0
  | none => ({ semaphoreWaits := 1 }, 0)

def SleepRegular (n : Nat) :
    Gate.Sleep (Recheck (Ring.Pop (Item ι α)) ι α) (Finding ι α) → Prop
  | .recheck k => k.Regular n
  | _ => True

theorem sleep_booked {s : Gate.Sleep (Recheck (Ring.Pop (Item ι α)) ι α) (Finding ι α)}
    {a : Move (Rings ι α) (Gate.Sleep (Recheck (Ring.Pop (Item ι α)) ι α) (Finding ι α))
      (Option (Finding ι α))}
    (hn : p.size = n) (hi : i < n) (hs : SleepRegular n s) (ha : a ∈ s.moves (recheck i) p) :
    Booked i p a.state (sleepView i n s) (a.read (sleepView i n) sleepOutcome) [] (sleepDues s)
      (a.read sleepDues sleepDebt) ∧ a.read (SleepRegular n) fun _ => True := by
  cases sleep_step ha with
  | recheck h | commit h => exact Recheck.booked hn hi hs h
  | @find q k x h =>
    have hb := Recheck.booked hn hi hs h
    cases x <;> exact hb
  | @retract x => cases x <;> exact ⟨.of_eq rfl rfl rfl rfl ⟨rfl, rfl⟩, trivial⟩
  | sink h => exact ⟨⟨rfl, rfl, 0, rfl, le_rfl⟩, trivial⟩
  | @pass w s h =>
    cases w with
    | subtract => exact ⟨⟨rfl, rfl, 0, rfl, le_rfl⟩, trivial⟩
    | acquire => exact ⟨.of_eq rfl rfl rfl rfl ⟨rfl, rfl⟩, trivial⟩
  | declare | wake => exact ⟨.of_eq rfl rfl rfl rfl ⟨rfl, rfl⟩, trivial⟩

def Search.dues : Search (Ring.Pop (Item ι α)) ι α → Dues
  | .steal _ s => s.dues
  | .sleep s => sleepDues s
  | .count => ({ semaphoreWaits := 1 }, 0)
  | _ => 0

def Search.Regular (n : Nat) : Search (Ring.Pop (Item ι α)) ι α → Prop
  | .steal _ s => s.Regular n
  | .sleep s => SleepRegular n s
  | _ => True

theorem Search.booked {s : Search (Ring.Pop (Item ι α)) ι α}
    {a : Move (Rings ι α) (Search (Ring.Pop (Item ι α)) ι α) (Finding ι α)}
    (hn : p.size = n) (hi : i < n) (hs : s.Regular n) (ha : a ∈ s.moves i p) :
    Booked i p a.state (s.view i n) (a.read (Search.view i n) Finding.view) [] s.dues
      (a.read Search.dues fun _ => 0) ∧ a.read (Search.Regular n) fun _ => True := by
  cases Search.step ha with
  | begin _ | told _ | rest => exact ⟨.of_eq rfl rfl rfl rfl ⟨rfl, rfl⟩, trivial⟩
  | look hr h | miss hr h =>
    exact ⟨.of_eq rfl rfl (stats_setQueue _ _ _) rfl ⟨rfl, rfl⟩, trivial⟩
  | find hr h => exact ⟨.took rfl rfl (stats_setQueue p i _), trivial⟩
  | spin => exact ⟨.of_eq rfl rfl rfl rfl ⟨rfl, rfl⟩, Nat.one_pos⟩
  | steal h | stolen h | exhaust h => exact Steal.booked false hn hi hs h
  | sleep h | found h | roused h | woken h => exact sleep_booked hn hi hs h
  | count =>
    exact ⟨.bump (hn ▸ hi) (s := { semaphoreWaits := 1 }) (fun _ => rfl) rfl rfl le_rfl, trivial⟩

def Loop.dues : Loop (Ring.Pop (Item ι α)) ι α → Dues
  | .search s => s.dues
  | .countPanic _ => ({ tasksRun := 1, panics := 1 }, 0)
  | .reportPanic _ | .countRun => ({ tasksRun := 1 }, 0)
  | _ => 0

def Loop.Regular (n : Nat) : Loop (Ring.Pop (Item ι α)) ι α → Prop
  | .search s => s.Regular n
  | .reportAbort _ | .abort => False
  | _ => True

def Turn.dues {X : Type} (f : X → Dues) : Turn ι α X → Dues
  | .stay x => f x
  | .call _ _ => 0

theorem Loop.booked {l : Loop (Ring.Pop (Item ι α)) ι α}
    {a : TurnMove (Ring (Item ι α)) ι α (Loop (Ring.Pop (Item ι α)) ι α)} (hn : p.size = n)
    (hi : i < n) (hl : l.Regular n) (hstop : l ≠ .stop) (ha : a ∈ l.moves i p) :
    Booked i p a.state (l.view i n) (a.read (Turn.view (Loop.view i n)) fun _ => .away) [] l.dues
      (a.read (Turn.dues Loop.dues) fun _ => 0) ∧
      a.read (Turn.Meets (Loop.Regular n) fun _ _ => True) fun _ => True := by
  cases Loop.step ha with
  | search h | told h => exact Search.booked hn hi hl h
  | found h => exact ⟨(Search.booked hn hi hl h).1, trivial⟩
  | countPanic =>
    exact ⟨.bump (hn ▸ hi) (s := { panics := 1 }) (fun _ => rfl) rfl rfl le_rfl, trivial⟩
  | reportPanic => exact ⟨.of_eq rfl rfl rfl rfl ⟨rfl, rfl⟩, trivial⟩
  | reportAbort | abort => exact hl.elim
  | countRun =>
    exact ⟨.bump (hn ▸ hi) (s := { tasksRun := 1 }) (fun _ => rfl) rfl rfl le_rfl, trivial⟩
  | stop => exact absurd rfl hstop

end Worker

section Client

variable {p : Rings ι α} {i n : Nat}

theorem Run.booked {place : Place} {t : Item ι α} {r : Run ι α}
    {a : TurnMove (Ring (Item ι α)) ι α (Run ι α)} (ha : a ∈ r.moves place t p)
    (hdone : ∀ o, r ≠ .leave o) :
    Booked i p a.state (r.view t) (a.read (Turn.view (Run.view t)) fun _ => .away) [] 0 0 := by
  cases Run.step ha with
  | @hold j h => exact .of_eq rfl rfl (stats_setHeld p j true) rfl ⟨rfl, rfl⟩
  | leave => exact absurd rfl (hdone _)
  | _ => exact .of_eq rfl rfl rfl rfl ⟨rfl, rfl⟩

theorem Push.booked (c : Nat) (single : Bool) {s : Push (Ring.Push (Item ι α)) ι α}
    {a : Move (Rings ι α) (Push (Ring.Push (Item ι α)) ι α) (Except (Item ι α) Nat)}
    (hn : p.size = n) (ha : a ∈ s.moves p) :
    Booked i p a.state (s.view n c single) (a.read (Push.view n c single) (Push.outcome c single))
      [] 0 0 := by
  subst hn
  cases Push.step ha with
  | aim | record => exact .of_eq rfl rfl rfl rfl ⟨rfl, rfl⟩
  | offer hr h | next hr h _ => exact .of_eq rfl rfl (stats_setQueue _ _ _) rfl ⟨rfl, rfl⟩
  | @place t start o r r' e pos hr h =>
    refine ⟨rfl, rfl, 0, ?_, le_rfl⟩
    change (p.setQueue _ r').stats + _ = _
    rw [stats_setQueue]
    rfl
  | refuse hr h _ =>
    refine .of_eq rfl rfl (stats_setQueue _ _ _) ?_ ⟨rfl, rfl⟩
    cases single <;> rfl

def notifyDues : Gate.Notify → Dues
  | .post m (.release _) => ({ semaphorePosts := m }, 0)
  | _ => 0

def NotifyRegular : Gate.Notify → Prop
  | .post m (.add k) => m = k
  | _ => True

def Wake.dues : Wake → Dues
  | .notify k => notifyDues k
  | .count posted => ({ semaphorePosts := posted }, 0)

def Wake.Regular : Wake → Prop
  | .notify k => NotifyRegular k
  | .count _ => True

theorem Wake.booked {w : Wake} {a : Move (Rings ι α) Wake Unit} (hw : w.Regular)
    (ha : a ∈ w.moves p) :
    Booked i p a.state w.view (a.read Wake.view fun _ => .away) [] w.dues
      (a.read Wake.dues fun _ => 0) ∧ a.read Wake.Regular fun _ => True := by
  cases Wake.step ha with
  | notify h =>
    cases h with
    | some h => exact ⟨.of_eq rfl rfl rfl rfl ⟨rfl, rfl⟩, rfl⟩
    | @owe m k l s h =>
      obtain rfl : m = k := hw
      exact ⟨⟨rfl, rfl, 0, rfl, le_rfl⟩, trivial⟩
  | @notified n g m h =>
    cases h with
    | none h => exact ⟨.of_eq rfl rfl rfl rfl ⟨rfl, rfl⟩, trivial⟩
    | @post _ q s h =>
      cases q with
      | add k =>
        obtain rfl : m = k := hw
        exact ⟨⟨rfl, rfl, 0, rfl, le_rfl⟩, trivial⟩
      | release l => exact ⟨.of_eq rfl rfl rfl rfl ⟨rfl, rfl⟩, trivial⟩
  | count =>
    refine ⟨⟨rfl, rfl, 0, ?_, le_rfl⟩, trivial⟩
    rw [Move.state, stats_post]
    rfl

def Submit.dues : Submit (Ring.Push (Item ι α)) ι α → Dues
  | .wake w _ => w.dues
  | .wakeAll _ _ w => w.dues
  | _ => 0

def Submit.Regular : Submit (Ring.Push (Item ι α)) ι α → Prop
  | .wake w _ => w.Regular
  | .wakeAll _ _ w => w.Regular
  | _ => True

variable [BEq ι]

theorem Submit.booked {s : Submit (Ring.Push (Item ι α)) ι α}
    {a : TurnMove (Ring (Item ι α)) ι α (Submit (Ring.Push (Item ι α)) ι α)} (hn : p.size = n)
    (hs : s.Regular) (ha : a ∈ s.moves p) :
    Booked i p a.state (s.view n) (a.read (Turn.view (Submit.view n)) fun _ => .away) [] s.dues
      (a.read (Turn.dues Submit.dues) fun _ => 0) ∧
      a.read (Turn.Meets Submit.Regular fun _ _ => True) fun _ => True := by
  cases Submit.step ha with
  | push h | pushed h | refused h => exact ⟨Push.booked 0 true hn h, trivial⟩
  | @pushChunk q r start pushed s s' h => exact ⟨Push.booked pushed false hn h, trivial⟩
  | @chunkPushed q r start pushed j s h => exact ⟨Push.booked pushed false hn h, trivial⟩
  | @chunkRefused q r start pushed s t h => exact ⟨Push.booked pushed false hn h, trivial⟩
  | wake h | wakeAll h => exact Wake.booked hs h
  | @woken q w handle? h =>
    have hb := Wake.booked (i := i) hs h
    cases handle? <;> exact ⟨hb.1, trivial⟩
  | rest h _ | finish h _ =>
    obtain ⟨posted, rfl, -⟩ := Wake.eq_of_done h
    exact ⟨(Wake.booked (w := .count posted) hs h).1.of_noted rfl, trivial⟩
  | _ => exact ⟨.of_eq rfl rfl rfl rfl ⟨rfl, rfl⟩, trivial⟩

end Client

section Points

def Activity.dues : RingActivity ι α → Dues
  | .loop _ l => l.dues
  | .submit s => s.dues
  | _ => 0

def Point.dues : RingPoint ι α → Dues
  | .busy _ top _ => top.dues
  | .await _ _ => 0

def Activity.Regular (n : Nat) : RingActivity ι α → Prop
  | .loop _ l => l.Regular n
  | .submit s => s.Regular
  | _ => True

def Point.Regular (n : Nat) : RingPoint ι α → Prop
  | .busy _ top _ => top.Regular n
  | .await _ _ => True

def finished? : RingPoint ι α → Option (Item ι α × Outcome)
  | .busy _ (.run t (.leave o)) [.loop _ _] => some (t, o)
  | _ => none

variable {p : Rings ι α} {n : Nat} {c : Call ι α} {place : Place} {below : List (RingActivity ι α)}

theorem Run.booked_leave {t : Item ι α} {o : Outcome} {i : Nat} (hpolicy : p.panicPolicy = .contain)
    (hs : Stacked n c place true below) :
    let pt : RingPoint ι α := .busy place (.run t (.leave o)) below
    let a : RingMove ι α := Point.land place below (.done (p.note (.ended t.closure.label place)) o)
    Booked i p a.state .away (a.read (Point.view n) fun _ => .away)
      ((finished? pt).toList.map Prod.snd) 0 (a.read Point.dues fun _ => 0) ∧
      a.read (Point.Regular n) fun _ => True := by
  have hp : (p.note (.ended t.closure.label place)).panicPolicy = .contain := hpolicy
  cases hs with
  | worker hi =>
    simp only [Point.land, hp]
    cases o <;> exact ⟨⟨rfl, rfl, 0, rfl, le_rfl⟩, trivial⟩
  | inline hs =>
    rename_i handle? _
    cases o <;> cases handle? <;> exact ⟨.of_eq rfl rfl rfl rfl ⟨rfl, rfl⟩, trivial⟩

variable [BEq ι]

theorem Point.booked {pt : RingPoint ι α} {a : RingMove ι α} (hn : p.size = n)
    (hpolicy : p.panicPolicy = .contain) (hs : Sane n c pt) (hr : pt.Regular n)
    (ha : a ∈ pt.moves p) :
    Booked (c.worker?.getD 0) p a.state (pt.view n) (a.read (Point.view n) fun _ => .away)
      ((finished? pt).toList.map Prod.snd) pt.dues (a.read Point.dues fun _ => 0) ∧
      a.read (Point.Regular n) fun _ => True := by
  cases Point.taken ha with
  | loop d hd =>
    obtain ⟨rfl, rfl, rfl, hi, hl⟩ := hs
    obtain ⟨h, hr'⟩ := Loop.booked hn hi hr (by rintro rfl; exact hl) hd
    rcases d with ⟨p', l' | ⟨x, k⟩⟩ | ⟨p', o⟩
    · exact ⟨h, hr'⟩
    · cases k <;> exact ⟨h, trivial⟩
    · exact ⟨h, trivial⟩
  | @run place t r below d hd =>
    by_cases hleave : ∃ o, r = .leave o
    · obtain ⟨o, rfl⟩ := hleave
      cases Run.step hd with
      | leave => exact Run.booked_leave hpolicy hs
    · have h := Run.booked (i := c.worker?.getD 0) hd fun o ho => hleave ⟨o, ho⟩
      have hfinished : finished? (.busy place (.run t r) below : RingPoint ι α) = none := by
        cases r <;> first | rfl | exact absurd ⟨_, rfl⟩ hleave
      rw [hfinished]
      rcases d with ⟨p', r' | ⟨x, k⟩⟩ | ⟨p', o⟩
      · exact ⟨h, trivial⟩
      · cases k <;> exact ⟨h, trivial⟩
      · exact absurd (Run.eq_of_done hd) hleave
  | submit d hd =>
    obtain ⟨h, hr'⟩ := Submit.booked (i := c.worker?.getD 0) hn hr hd
    rcases d with ⟨p', s' | ⟨x, k⟩⟩ | ⟨p', o⟩
    · exact ⟨h, hr'⟩
    · cases k <;> exact ⟨h, trivial⟩
    · have hs : Stacked n c _ false _ := hs
      cases hs with
      | caller o => exact ⟨h, trivial⟩
      | run hs => cases o <;> exact ⟨h, trivial⟩
  | shutdown d hd => exact hs.elim
  | await d hz hd => cases d <;> exact ⟨.of_eq rfl rfl rfl rfl ⟨rfl, rfl⟩, trivial⟩

end Points

end WorkStealing.Pool
