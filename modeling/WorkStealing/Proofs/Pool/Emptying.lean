import WorkStealing.Proofs.Pool.Inline
import WorkStealing.Proofs.Pool.Joining
import WorkStealing.Proofs.Pool.Searching
import Mathlib.Algebra.BigOperators.Intervals

namespace WorkStealing.Pool

variable {ι α : Type}

/-- A task that gets to its end by itself: nobody has to let it go, it submits nothing, and its result
has a place to go to, of `slots` in all. -/
def Ready (slots : Nat) (t : Item ι α) : Prop :=
  match t.closure with
  | .task _ (.answer _) _ (some slot) => slot < slots
  | .task _ .hold _ _ => False
  | .task _ (.spawn orders) _ _ => orders = []
  | _ => True

def record (w i : Nat) (t : Item ι α) : List (Event ι) :=
  [.taken t.closure.label w i, .began t.closure.label (.worker w) false,
    .ended t.closure.label (.worker w)] ++
    (t.closure.panic? (.worker w)).toList.map fun x => .notice (.panicked w x.text)

def panics (w : Nat) (t : Item ι α) : Bool := (t.closure.panic? (.worker w)).isSome

/-- What worker `w` counts for a task that it takes from the `k`-th queue it comes to. -/
def cost (w k : Nat) (t : Item ι α) : Stats :=
  { trySteals := k, steals := if k = 0 then 0 else 1, tasksRun := 1,
    panics := if panics w t then 1 else 0 }

theorem cost_eq (w k : Nat) (t : Item ι α) : cost w k t =
    { trySteals := k, steals := if k = 0 then 0 else 1 } +
      { tasksRun := 1, panics := if panics w t then 1 else 0 } := by
  ext <;> first | rfl | exact (Nat.zero_add _).symm

def atHead (w : Nat) : RingPoint ι α := .busy (.worker w) (.loop w (.search .look)) []

def atGate (w : Nat) : RingPoint ι α :=
  .busy (.worker w) (.loop w (.search (.sleep (.wait .acquire)))) []

def Scene.served (d : Scene ι α) (n w k : Nat) (t : Item ι α) (ts : List (Item ι α)) : Scene ι α :=
  { d.setTasks ((w + k) % n) ts with
    counters := d.counters + cost w k t
    history := (record w ((w + k) % n) t).reverse ++ d.history }

section Stock

/-- All tasks there are, in the order in which worker `w` of `n` comes to them, each with how far it
has to look for it. -/
def Scene.stock (d : Scene ι α) (n w : Nat) : List (Nat × Item ι α) :=
  (List.range n).flatMap fun k => (d.lane n w k).map (k, ·)

theorem flatMap_first {X : Type} {lane : Nat → List X} {s m k : Nat} {x : X} {rest : List (Nat × X)}
    (h : (List.range' s m).flatMap (fun j => (lane j).map (j, ·)) = (k, x) :: rest) :
    s ≤ k ∧ k < s + m ∧ (∀ j, s ≤ j → j < k → lane j = []) ∧ ∃ xs, lane k = x :: xs ∧
      (List.range' s m).flatMap (fun j => (Function.update lane k xs j).map (j, ·)) = rest := by
  induction m generalizing s with
  | zero => cases h
  | succ m ih =>
    rw [List.range'_succ, List.flatMap_cons] at h
    cases hs : lane s with
    | nil =>
      rw [hs, List.map_nil, List.nil_append] at h
      obtain ⟨hle, hlt, hempty, xs, hk, hrest⟩ := ih h
      refine ⟨by omega, by omega, fun j hj hjk => ?_, xs, hk, ?_⟩
      · rcases Nat.eq_or_lt_of_le hj with rfl | hj
        · exact hs
        · exact hempty j hj hjk
      · rw [List.range'_succ, List.flatMap_cons, Function.update_of_ne (by omega), hs, List.map_nil,
          List.nil_append]
        exact hrest
    | cons y ys =>
      rw [hs, List.map_cons, List.cons_append] at h
      obtain ⟨hpair, rfl⟩ := List.cons.inj h
      obtain ⟨rfl, rfl⟩ := Prod.mk.inj hpair
      refine ⟨le_rfl, by omega, fun j hj hjk => absurd hjk (by omega), ys, hs, ?_⟩
      rw [List.range'_succ, List.flatMap_cons, Function.update_self]
      congr 1
      refine List.flatMap_congr fun j hj => ?_
      have := (List.mem_range'_1.1 hj).1
      rw [Function.update_of_ne (by omega)]

theorem add_mod_inj {n w j k : Nat} (hj : j < n) (hk : k < n) :
    (w + j) % n = (w + k) % n ↔ j = k := by
  constructor
  · intro h
    exact Nat.ModEq.eq_of_lt_of_lt (Nat.ModEq.add_left_cancel' w h) hj hk
  · rintro rfl
    rfl

theorem Scene.stock_cons {d : Scene ι α} {n w k : Nat} {t : Item ι α} {rest : List (Nat × Item ι α)}
    (h : d.stock n w = (k, t) :: rest) : k < n ∧ (∀ j < k, d.lane n w j = []) ∧
      ∃ ts, d.lane n w k = t :: ts ∧ (d.setTasks ((w + k) % n) ts).stock n w = rest := by
  rw [stock, List.range_eq_range'] at h
  obtain ⟨-, hlt, hempty, ts, hk, hrest⟩ := flatMap_first h
  rw [Nat.zero_add] at hlt
  refine ⟨hlt, fun j hj => hempty j (Nat.zero_le j) hj, ts, hk, ?_⟩
  rw [← hrest, stock, List.range_eq_range']
  refine List.flatMap_congr fun j hj => ?_
  have hjn : j < n := by simpa using (List.mem_range'_1.1 hj).2
  simp only [lane, setTasks, Function.update_apply, add_mod_inj hjn hlt]

theorem Scene.lane_nil {d : Scene ι α} {n w : Nat} (h : d.stock n w = []) (hn : 0 < n) (k : Nat) :
    d.lane n w k = [] := by
  have hk := List.flatMap_eq_nil_iff.1 h (k % n) (List.mem_range.2 (Nat.mod_lt k hn))
  rw [List.map_eq_nil_iff, lane, Nat.add_mod_mod] at hk
  exact hk

theorem record_stock (d : Scene ι α) (n w : Nat) :
    ((d.stock n w).flatMap fun kt => record w ((w + kt.1) % n) kt.2) =
      (List.range n).flatMap fun k =>
        (d.tasks ((w + k) % n)).flatMap (record w ((w + k) % n)) := by
  rw [Scene.stock, List.flatMap_assoc]
  simp only [List.flatMap_map]
  rfl

end Stock

section Bill

/-- What worker `w` of `n` counts that serves these queues, spins `spin` times before each sleep, and
is woken by `b` permits. -/
def bill (n spin w b : Nat) (tasks : Nat → List (Item ι α)) : Stats where
  semaphoreWaits := b
  trySteals := ∑ k ∈ Finset.Ico 1 n, k * (tasks ((w + k) % n)).length +
    (b + 1) * (n - 1) * (spin + 1)
  steals := ∑ i ∈ (Finset.range n).erase w, (tasks i).length
  tasksRun := ∑ i ∈ Finset.range n, (tasks i).length
  panics := ∑ i ∈ Finset.range n, (tasks i).countP (panics w)

theorem sum_turns {n w : Nat} (f : Nat → Nat) :
    ∑ k ∈ Finset.range n, f ((w + k) % n) = ∑ i ∈ Finset.range n, f i := by
  refine Finset.sum_nbij (fun k => (w + k) % n) (fun k hk => ?_) (fun k hk j hj h => ?_)
    (fun i hi => ?_) fun _ _ => rfl
  · have hn := Finset.mem_range.1 hk
    exact Finset.mem_range.2 (Nat.mod_lt _ (by omega))
  · exact (add_mod_inj (Finset.mem_range.1 hk) (Finset.mem_range.1 hj)).1 h
  · obtain ⟨k, hk, h⟩ := exists_add_mod w (Finset.mem_range.1 hi)
    exact ⟨k, Finset.mem_coe.2 (Finset.mem_range.2 hk), h⟩

theorem sum_steals {n w : Nat} (hw : w < n) (f : Nat → Nat) :
    ∑ k ∈ Finset.range n, (if k = 0 then 0 else f ((w + k) % n)) =
      ∑ i ∈ (Finset.range n).erase w, f i := by
  have hother : ∑ i ∈ Finset.range n, (if i = w then 0 else f i) =
      ∑ i ∈ (Finset.range n).erase w, f i := by
    rw [← Finset.add_sum_erase _ _ (Finset.mem_range.2 hw), if_pos rfl, Nat.zero_add]
    exact Finset.sum_congr rfl fun i hi => if_neg (Finset.ne_of_mem_erase hi)
  rw [← hother, ← sum_turns (w := w) fun i => if i = w then 0 else f i]
  refine Finset.sum_congr rfl fun k hk => ?_
  have hturn := add_mod_inj (w := w) (Finset.mem_range.1 hk) (by omega : 0 < n)
  rw [Nat.add_zero, Nat.mod_eq_of_lt hw] at hturn
  simp only [hturn]

theorem sum_cost (w k : Nat) (ts : List (Item ι α)) : (ts.map (cost w k)).sum =
    { trySteals := k * ts.length, steals := if k = 0 then 0 else ts.length, tasksRun := ts.length,
      panics := ts.countP (panics w) } := by
  induction ts with
  | nil => split <;> rfl
  | cons t ts ih =>
    rw [List.map_cons, List.sum_cons, ih, Stats.add_eq, List.length_cons, List.countP_cons]
    ext
    · rfl
    · rfl
    · exact (Nat.add_comm _ _).trans (Nat.mul_succ _ _).symm
    · dsimp only [cost]
      split <;> omega
    · exact Nat.add_comm _ _
    · exact Nat.add_comm _ _

theorem sum_lanes (d : Scene ι α) (n w m : Nat) :
    (((List.range m).flatMap fun k => (d.lane n w k).map (k, ·)).map fun kt =>
      cost w kt.1 kt.2).sum =
    { trySteals := ∑ k ∈ Finset.range m, k * (d.lane n w k).length
      steals := ∑ k ∈ Finset.range m, if k = 0 then 0 else (d.lane n w k).length
      tasksRun := ∑ k ∈ Finset.range m, (d.lane n w k).length
      panics := ∑ k ∈ Finset.range m, (d.lane n w k).countP (panics w) } := by
  induction m with
  | zero => rfl
  | succ m ih =>
    have hlane : (((d.lane n w m).map (m, ·)).map fun kt => cost w kt.1 kt.2) =
        (d.lane n w m).map (cost w m) := List.map_map
    rw [List.range_succ, List.flatMap_append, List.map_append, List.sum_append, ih,
      List.flatMap_singleton, hlane, sum_cost]
    simp only [Finset.sum_range_succ]
    rfl

theorem sum_stock (d : Scene ι α) {n w : Nat} (hw : w < n) (spin b : Nat) :
    ((d.stock n w).map fun kt => cost w kt.1 kt.2).sum +
      { trySteals := (b + 1) * ((spin + 1) * (n - 1)), semaphoreWaits := b } =
    bill n spin w b d.tasks := by
  rw [Scene.stock, sum_lanes, Stats.add_eq, bill]
  ext
  · rfl
  · exact Nat.zero_add b
  · have hlanes : ∑ k ∈ Finset.range n, k * (d.lane n w k).length =
        ∑ k ∈ Finset.Ico 1 n, k * (d.lane n w k).length := by
      rw [Finset.range_eq_Ico, Finset.sum_eq_sum_Ico_succ_bot (by omega), Nat.zero_mul, Nat.zero_add]
    rw [hlanes, Nat.mul_assoc, Nat.mul_comm (n - 1)]
    rfl
  · exact sum_steals hw fun i => (d.tasks i).length
  · exact sum_turns fun i => (d.tasks i).length
  · exact sum_turns fun i => (d.tasks i).countP (panics w)

end Bill

section Emptied

/-- What becomes of `p` once worker `w` has run all the tasks in the queues and, woken by `b` permits
in between, found no more: those of its own queue come first, then those of its successors' in turn,
and those of one queue in the order in which they stood. -/
structure Exhausted (p q : Rings ι α) (w cap b : Nat) (tasks : Nat → List (Item ι α)) : Prop where
  stocked : Stocked q cap fun _ => []
  history : q.history = ((List.range p.size).flatMap fun k =>
    (tasks ((w + k) % p.size)).flatMap (record w ((w + k) % p.size))).reverse ++ p.history
  counters : ∀ i, q.workers[i]?.map Worker.counters = p.workers[i]?.map fun x =>
    if i = w then x.counters + bill p.size p.spinCount w b tasks else x.counters
  gate : q.gate = ⟨p.gate.sleepers + 1, ⟨-1, 0⟩⟩
  same : q = { p with
    workers := q.workers, slots := q.slots, history := q.history, gate := q.gate }

def Scene.emptied (d : Scene ι α) (n spin w b : Nat) (left : Nat → List (Item ι α)) :
    Scene ι α where
  tasks := left
  counters := d.counters + bill n spin w b d.tasks
  history := ((List.range n).flatMap fun k =>
    (d.tasks ((w + k) % n)).flatMap (record w ((w + k) % n))).reverse ++ d.history
  gate := ⟨d.gate.sleepers + 1, ⟨-1, d.gate.semaphore.permits⟩⟩

theorem Shows.exhausted {p q : Rings ι α} {w cap b : Nat} {d : Scene ι α}
    {left : Nat → List (Item ι α)} (hp : Shows p w cap p d)
    (hq : Shows p w cap q (d.emptied p.size p.spinCount w b left))
    (hleft : ∀ i < p.size, left i = []) (hnone : p.gate.semaphore.permits = 0) :
    Exhausted p q w cap b d.tasks := by
  have hhistory : p.history = d.history := congrArg Pool.history hp.same
  have hafter : q.history = (d.emptied p.size p.spinCount w b left).history :=
    congrArg Pool.history hq.same
  refine ⟨fun i x hx => ?_, ?_, fun i => ?_, ?_, ?_⟩
  · have hi : i < p.size := hq.size ▸ (List.getElem?_eq_some_iff.1 hx).1
    exact hleft i hi ▸ hq.stocked i x hx
  · rw [hafter, hhistory]
    rfl
  · cases hx : p.workers[i]? with
    | none =>
      have hge := List.getElem?_eq_none_iff.1 hx
      have hsize := hq.size
      rw [Pool.size, Pool.size] at hsize
      rw [List.getElem?_eq_none (by omega)]
      rfl
    | some x =>
      obtain ⟨r, f, -, hr⟩ := hq.worker i x hx
      obtain ⟨r', f', -, hr'⟩ := hp.worker i x hx
      have hcounters := congrArg Worker.counters (Option.some.inj (hx.symm.trans hr'))
      rw [hr, Option.map_some, Option.map_some]
      split
      · rename_i hi
        rw [if_pos hi] at hcounters
        rw [hcounters]
        rfl
      · rfl
  · rw [hq.gate, Scene.emptied, ← hp.gate, hnone]
  · rw [hafter, hq.gate]
    exact hq.same

end Emptied

variable [BEq ι] {p : Rings ι α} {w : Nat} (cap : Nat) {d d' : Scene ι α}
  {t : Item ι α}

theorem leads_stay {place : Place} {top x : RingActivity ι α} {below : List (RingActivity ι α)}
    {g : Rings ι α → Rings ι α} (ha : p.aborted = false) (hg : ∀ q, Shows p w cap q d →
      top.moves place q = [.go (g q) (.stay x)] ∧ Shows p w cap (g q) d') :
    Leads p w cap calls.moves d (.busy place top below) d' fun q => .go q (.busy place x below) := by
  intro q hq
  obtain ⟨hmoves, hd⟩ := hg q hq
  exact ⟨g q, passes_stay (hq.aborted.trans ha) hmoves, hd⟩

section Run

variable {below : List (RingActivity ι α)}

theorem leads_body (ha : p.aborted = false) (hr : Ready p.slots.length t) :
    Leads p w cap calls.moves d (.busy (.worker w) (.run t (Run.afterBegin (.worker w) t)) below) d
      fun q => .go q (.busy (.worker w) (.run t (.leave (Run.outcome (.worker w) t))) below) := by
  rcases t with ⟨layout, ⟨id, _ | v | _ | orders, panic, slot⟩ | ⟨id, lo, hi, panic⟩⟩
  · exact .refl d _
  · cases slot with
    | none => cases panic <;> exact .refl d _
    | some slot =>
      intro q hq
      have hslot : slot < q.slots.length := hq.slots.1 ▸ hr
      obtain ⟨z, hz, hsturdy⟩ := passes_answer (.worker w) layout id v panic below
        (hq.aborted.trans ha) (List.getElem?_eq_getElem hslot)
        (hq.slots.2 _ (List.getElem_mem hslot))
      exact ⟨_, hz, hq.setSlot slot hsturdy⟩
  · exact hr.elim
  · obtain rfl : orders = [] := hr
    exact leads_stay cap ha fun q h => ⟨rfl, h⟩
  · exact .refl d _

theorem leads_begin (ha : p.aborted = false) (hr : Ready p.slots.length t) :
    Leads p w cap calls.moves d (.busy (.worker w) (.run t .begin) below)
      (d.note (.began t.closure.label (.worker w) false))
      fun q => .go q (.busy (.worker w) (.run t (Run.afterBegin (.worker w) t)) below) := by
  have hfree : t.closure.holds? (.worker w) = none := by
    rcases t with ⟨_, ⟨_, _ | _ | _ | _, _, _⟩ | ⟨_, _, _, _⟩⟩ <;> first | rfl | exact hr.elim
  refine leads_stay cap ha fun q h => ⟨?_, h.note _⟩
  rw [Activity.moves, Run.moves, hfree]
  rfl

theorem leads_end (ha : p.aborted = false) (o : Outcome) :
    Leads p w cap calls.moves d (.busy (.worker w) (.run t (.leave o)) [.loop w .working])
      (d.note (.ended t.closure.label (.worker w)))
      fun q => .go q (.busy (.worker w) (.loop w (Loop.resume p.panicPolicy o)) []) := by
  intro q hq
  have hpass := passes_end [.loop w .working] (.worker w) (hq.aborted.trans ha) t o
  refine ⟨_, ?_, hq.note _⟩
  rw [← hq.panicPolicy]
  exact hpass

theorem leads_resume (ha : p.aborted = false) (hpolicy : p.panicPolicy = .contain) :
    Leads p w cap calls.moves d (.busy (.worker w)
        (.loop w (Loop.resume p.panicPolicy (Run.outcome (.worker w) t))) [])
      { d with
        counters := d.counters + { tasksRun := 1, panics := if panics w t then 1 else 0 }
        history := ((t.closure.panic? (.worker w)).toList.map fun x =>
          .notice (.panicked w x.text)) ++ d.history }
      fun q => .go q (atHead w) := by
  have hcount (d : Scene ι α) : Leads p w cap calls.moves d (.busy (.worker w) (.loop w .countRun) [])
      (d.count { tasksRun := 1 }) fun q => .go q (atHead w) :=
    leads_stay cap ha fun q h => ⟨rfl, h.bump fun _ => rfl⟩
  rw [hpolicy, Run.outcome, panics]
  cases hpanic : t.closure.panic? (.worker w) with
  | none => exact hcount d
  | some x =>
    have hpanics : Leads p w cap calls.moves d (.busy (.worker w) (.loop w (.countPanic x.text)) [])
        (d.count { panics := 1 }) fun q => .go q (.busy (.worker w) (.loop w (.reportPanic x.text)) []) :=
      leads_stay cap ha fun q h => ⟨rfl, h.bump fun _ => rfl⟩
    have hreport (d : Scene ι α) : Leads p w cap calls.moves d
        (.busy (.worker w) (.loop w (.reportPanic x.text)) [])
        (d.note (.notice (.panicked w x.text)))
        fun q => .go q (.busy (.worker w) (.loop w .countRun) []) :=
      leads_stay cap ha fun q h => ⟨rfl, h.note _⟩
    have htotal := hpanics.trans ((hreport _).trans (hcount _))
    simp only [Scene.count, Scene.note, add_assoc] at htotal
    exact htotal

theorem leads_run (ha : p.aborted = false) (hpolicy : p.panicPolicy = .contain)
    (hr : Ready p.slots.length t) :
    Leads p w cap calls.moves d (.busy (.worker w) (.run t .begin) [.loop w .working])
      { d with
        counters := d.counters + { tasksRun := 1, panics := if panics w t then 1 else 0 }
        history := ((t.closure.panic? (.worker w)).toList.map fun x =>
          .notice (.panicked w x.text)) ++ .ended t.closure.label (.worker w) ::
            .began t.closure.label (.worker w) false :: d.history }
      fun q => .go q (atHead w) :=
  (leads_begin cap ha hr).trans ((leads_body cap ha hr).trans
    ((leads_end cap ha _).trans (leads_resume cap ha hpolicy)))

end Run

section Serve

theorem embeds_search (w : Nat) : Embeds (Search.moves w) calls.moves
    (fun a => Point.land (.worker w) [] (a.embed id (fun s => .stay (.loop w (.search s)))
      fun (q : Rings ι α) found =>
        match found with
        | .task t => .go q (.call (.loop w .working) (.run t))
        | .stop => .go q (.stay (.loop w .stop))))
    fun q => q.aborted = false := by
  refine embeds_busy (fun _ _ _ => Search.frame) fun q s => ?_
  rw [Activity.moves, Loop.moves, map_embed_stay]
  refine List.map_congr_left fun a _ => ?_
  rcases a with _ | ⟨_, _ | _⟩ <;> rfl

theorem leads_serve {k : Nat} {ts : List (Item ι α)} (ha : p.aborted = false)
    (hpolicy : p.panicPolicy = .contain) (hw : w < p.size) (hrun : p.phase? w = some .running)
    (hk : k < p.size) (hempty : ∀ j < k, d.lane p.size w j = [])
    (hlane : d.lane p.size w k = t :: ts) (hr : Ready p.slots.length t) :
    Leads p w cap calls.moves d (atHead w) (d.served p.size w k t ts) fun q => .go q (atHead w) := by
  have hfind : Leads p w cap calls.moves d (atHead w) (d.found p.size w k t ts)
      fun q => .go q (.busy (.worker w) (.run t .begin) [.loop w .working]) :=
    (leads_find cap hw hrun hk hempty hlane).map (embeds_search w) (fun q h => h.aborted.trans ha)
      fun _ => rfl
  have htotal := hfind.trans (leads_run cap ha hpolicy hr)
  have hscene : d.served p.size w k t ts = { d.found p.size w k t ts with
      counters := (d.found p.size w k t ts).counters +
        { tasksRun := 1, panics := if panics w t then 1 else 0 }
      history := ((t.closure.panic? (.worker w)).toList.map fun x =>
        .notice (.panicked w x.text)) ++ .ended t.closure.label (.worker w) ::
          .began t.closure.label (.worker w) false :: (d.found p.size w k t ts).history } := by
    simp only [Scene.served, Scene.found, Scene.count, Scene.setTasks, Scene.note, add_assoc]
    rw [cost_eq, record]
    cases t.closure.panic? (.worker w) <;> rfl
  exact hscene ▸ htotal

end Serve

section Drain

theorem leads_drain (ha : p.aborted = false) (hpolicy : p.panicPolicy = .contain) (hw : w < p.size)
    (hrun : p.phase? w = some .running)
    (hr : ∀ kt ∈ d.stock p.size w, Ready p.slots.length kt.2) :
    ∃ tasks, (∀ k, (tasks ((w + k) % p.size) : List (Item ι α)) = []) ∧
      Leads p w cap calls.moves d (atHead w)
        { tasks
          counters := d.counters + ((d.stock p.size w).map fun kt => cost w kt.1 kt.2).sum
          history := ((d.stock p.size w).flatMap fun kt =>
            record w ((w + kt.1) % p.size) kt.2).reverse ++ d.history
          gate := d.gate } fun q => .go q (atHead w) := by
  generalize hstock : d.stock p.size w = stock at hr ⊢
  induction stock generalizing d with
  | nil =>
    refine ⟨d.tasks, Scene.lane_nil hstock (by omega), ?_⟩
    rw [List.map_nil, List.sum_nil, add_zero]
    exact .refl d _
  | cons kt rest ih =>
    obtain ⟨k, t⟩ := kt
    obtain ⟨hk, hempty, ts, hlane, hrest⟩ := Scene.stock_cons hstock
    have hserve := leads_serve cap ha hpolicy hw hrun hk hempty hlane
      (hr (k, t) List.mem_cons_self)
    obtain ⟨tasks, hnil, hdrain⟩ := ih (d := d.served p.size w k t ts) hrest
      fun kt hkt => hr kt (List.mem_cons_of_mem _ hkt)
    refine ⟨tasks, hnil, ?_⟩
    have htotal := hserve.trans hdrain
    simp only [Scene.served, Scene.setTasks, add_assoc, ← List.append_assoc] at htotal
    rw [List.map_cons, List.sum_cons, List.flatMap_cons, List.reverse_append]
    exact htotal

theorem leads_emptying {b : Nat} (ha : p.aborted = false) (hpolicy : p.panicPolicy = .contain)
    (hw : w < p.size) (hrun : p.phase? w = some .running)
    (hr : ∀ kt ∈ d.stock p.size w, Ready p.slots.length kt.2)
    (hb : d.gate.semaphore.count.toInt = b) : ∃ left, (∀ i < p.size, left i = []) ∧
      Leads p w cap calls.moves d (atHead w) (d.emptied p.size p.spinCount w b left)
        fun q => .go q (atGate w) := by
  obtain ⟨left, hnil, hdrain⟩ := leads_drain cap ha hpolicy hw hrun hr
  refine ⟨left, fun i hi => ?_, ?_⟩
  · obtain ⟨k, -, rfl⟩ := exists_add_mod w hi
    exact hnil k
  · let drained : Scene ι α :=
      { tasks := left
        counters := d.counters + ((d.stock p.size w).map fun kt => cost w kt.1 kt.2).sum
        history := ((d.stock p.size w).flatMap fun kt =>
          record w ((w + kt.1) % p.size) kt.2).reverse ++ d.history
        gate := d.gate }
    have hrounds := (leads_rounds cap (d := drained) hw hrun hnil hb).map
      (embeds_search w) (fun q h => h.aborted.trans ha) fun _ => rfl
    have htotal := hdrain.trans hrounds
    simp only [drained, add_assoc, sum_stock d hw, record_stock] at htotal
    exact htotal

theorem moves_atGate {q : Rings ι α} (hnone : q.gate.semaphore.permits = 0) :
    calls.moves q (atGate w) = [] := by
  rw [calls]
  simp only [atGate, Point.moves, Activity.moves, Loop.moves, Search.moves, Gate.Sleep.moves,
    Gated.gate, Semaphore.Wait.moves, hnone, List.map_nil, ite_self]

def Blocked (p : Rings ι α) : RingThread ι α → Prop
  | .finished .. => True
  | .running _ (.busy (.worker i) (.run _ .held) _) => p.isHeld i
  | _ => False

theorem Blocked.moves {q : Rings ι α} {c : Call ι α} {x : RingPoint ι α}
    {T : Nat → Prop} (h : Blocked p (.running c x))
    (hq : Akin T p q) : calls.moves q x = [] := by
  unfold Blocked at h
  split at h
  · rename_i he
    cases he
  · rename_i i t below he
    obtain ⟨rfl, rfl⟩ := Thread.running.inj he
    rw [calls]
    simp only [Point.moves, Activity.moves, Run.moves, Run.isLetGo, hq.held i h, Bool.not_true,
      Bool.false_eq_true, if_false, List.map_nil, ite_self]
  · exact h.elim

variable {cap}

theorem run_sturdy {c : Config} {cores : Nat} {log : Log ι α} {k : RingCrew ι α}
    (hp : Pool.new c cores = .ok p)
    (h : Crew.Run calls (fun k c => Joins p.size k c) ⟨p, []⟩ log k) (hb : claims log < 2 ^ 63) :
    ∀ z ∈ k.state.slots, z.latch.Sturdy := by
  intro z hz
  obtain ⟨s, hs⟩ := List.getElem?_of_mem hz
  have hslot : slotAt k.state s = z := by rw [slotAt, hs, Option.getD_some]
  obtain ⟨g, hh, -⟩ := run_handed hp h hb s
  obtain ⟨n, hn⟩ := hh.latch
  exact hslot ▸ hn.balanced.owned.sturdy

theorem lone_worker_empties {b : Nat} {tasks : Nat → List (Item ι α)}
    {before after : List (RingThread ι α)} (hw : w < p.size) (hrun : p.phase? w = some .running)
    (ha : p.aborted = false) (hpolicy : p.panicPolicy = .contain) (hs : Stocked p cap tasks)
    (hr : ∀ i < p.size, ∀ t ∈ tasks i, Ready p.slots.length t)
    (hz : ∀ z ∈ p.slots, z.latch.Sturdy) (hb : p.gate.semaphore.count.toInt = b)
    (hnone : p.gate.semaphore.permits = 0) (hothers : ∀ x ∈ before ++ after, Blocked p x) :
    ∃ q, Crew.ComesTo calls ⟨p, before ++ .running (.work w) (atHead w) :: after⟩
      ⟨q, before ++ .running (.work w) (atGate w) :: after⟩ ∧ Exhausted p q w cap b tasks := by
  let d : Scene ι α := ⟨tasks, (p.workers.get ⟨w, hw⟩).counters, p.history, p.gate⟩
  have hstart : Shows p w cap p d := by
    refine .start hs hz (fun x hx => ?_) rfl rfl
    obtain ⟨-, rfl⟩ := List.getElem?_eq_some_iff.1 hx
    rfl
  have hready : ∀ kt ∈ d.stock p.size w, Ready p.slots.length kt.2 := by
    intro kt hkt
    obtain ⟨k, -, hk⟩ := List.mem_flatMap.1 hkt
    obtain ⟨t, ht, rfl⟩ := List.mem_map.1 hk
    exact hr _ (Nat.mod_lt _ (by omega)) t ht
  obtain ⟨left, hnil, hleads⟩ := leads_emptying cap ha hpolicy hw hrun hready hb
  obtain ⟨q, hq, hshows⟩ := hleads p hstart
  have hempty := hstart.exhausted hshows hnil hnone
  have hrest : calls.moves q (atGate w) = [] := moves_atGate (by rw [hempty.gate])
  have hcomes : Crew.ComesTo calls (Crew.withMove before after (.work w) (.go p (atHead w)))
      (Crew.withMove before after (.work w) (.go q (atGate w))) :=
    Crew.comesTo_lone (J := Akin (fun _ => True) p)
      (fun r x a hj hm => hj.trans (Point.akin (fun _ _ => trivial) hm))
      (fun r hj c x hx => (hothers _ hx).moves hj) (Akin.refl p) (hq.comesTo (.rest hrest))
  exact ⟨q, hcomes, hempty⟩

def answering : Item Nat Nat := ⟨.small, .task 0 (.answer 7) none (some 0)⟩

def panicking : Item Nat Nat := ⟨.small, .task 1 .nothing (some (.message "boom")) none⟩

/-- Two workers, the second held, with a task in each queue and one permit at the gate. -/
def pair (r : Ring (Item Nat Nat)) : Rings Nat Nat where
  workers := [{ queue := r.afterPush answering }, { queue := r.afterPush panicking, held := true }]
  lastPlaced := 1
  spinCount := 1
  minGranularity := 1
  panicPolicy := .contain
  gate := ⟨0, ⟨1, 0⟩⟩
  slots := [{}]

def pairTasks : Nat → List (Item Nat Nat)
  | 0 => [answering]
  | _ => [panicking]

def heldThread : RingThread Nat Nat :=
  .running (.work 1) (.busy (.worker 1) (.run ⟨.small, .task 2 .hold none none⟩ .held)
    [.loop 1 .working])

theorem lone_worker_empties_pair : ∃ (r : Ring (Item Nat Nat)) (q : Rings Nat Nat),
    Ring.new 2 none = .ok r ∧ Stocked (pair r) 2 pairTasks ∧
      (∀ i < 2, ∀ t ∈ pairTasks i, Ready 1 t) ∧ Blocked (pair r) heldThread ∧
      Crew.ComesTo calls ⟨pair r, [.running (.work 0) (atHead 0), heldThread]⟩
        ⟨q, [.running (.work 0) (atGate 0), heldThread]⟩ ∧
      q.history = [.notice (.panicked 0 "boom"), .ended (.task 1) (.worker 0),
        .began (.task 1) (.worker 0) false, .taken (.task 1) 0 1, .ended (.task 0) (.worker 0),
        .began (.task 0) (.worker 0) false, .taken (.task 0) 0 0] ∧
      q.workers[0]?.map Worker.counters = some
        { semaphoreWaits := 1, trySteals := 5, steals := 1, tasksRun := 2, panics := 1 } := by
  obtain ⟨r, hr⟩ : ∃ r : Ring (Item Nat Nat), Ring.new 2 none = .ok r := ⟨_, rfl⟩
  have hempty : r.Holds 2 0 [] := Ring.holds_new hr
  have hs : Stocked (pair r) 2 pairTasks := by
    rintro (_ | _ | i) x hx
    · obtain rfl := Option.some.inj hx
      exact ⟨0, hempty.afterPush (by decide) _⟩
    · obtain rfl := Option.some.inj hx
      exact ⟨0, hempty.afterPush (by decide) _⟩
    · cases hx
  have hready : ∀ i < 2, ∀ t ∈ pairTasks i, Ready 1 t := by
    rintro (_ | i) - t ht
    · obtain rfl := List.mem_singleton.1 ht
      exact Nat.one_pos
    · obtain rfl := List.mem_singleton.1 ht
      trivial
  have hblocked : Blocked (pair r) heldThread := rfl
  have hslots : ∀ z ∈ (pair r).slots, z.latch.Sturdy := by
    intro z hz a ha
    obtain rfl := List.mem_singleton.1 hz
    cases ha
  have hothers : ∀ x ∈ [] ++ [heldThread], Blocked (pair r) x := by
    intro x hx
    obtain rfl := List.mem_singleton.1 hx
    exact hblocked
  obtain ⟨q, hcomes, hemptied⟩ : ∃ q, Crew.ComesTo calls
      ⟨pair r, [] ++ .running (.work 0) (atHead 0) :: [heldThread]⟩
      ⟨q, [] ++ .running (.work 0) (atGate 0) :: [heldThread]⟩ ∧
        Exhausted (pair r) q 0 2 1 pairTasks :=
    lone_worker_empties Nat.two_pos rfl rfl rfl hs hready hslots rfl rfl hothers
  exact ⟨r, q, hr, hs, hready, hblocked, hcomes, hemptied.history, hemptied.counters 0⟩

end Drain

end WorkStealing.Pool
