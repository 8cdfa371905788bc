import WorkStealing.Proofs.Pool.Counters
import WorkStealing.Proofs.Pool.Ledger
import WorkStealing.Proofs.Pool.Stranded
import WorkStealing.Proofs.Queue.Plain
import Mathlib.Algebra.BigOperators.Fin

namespace WorkStealing

/-- The permits that are there to be taken, or handed over and not yet picked up. -/
def Semaphore.banked (s : Semaphore) : Nat := s.permits + s.count.toInt.toNat

namespace Pool

variable {ι α : Type} (f : Item ι α → Bool)

section Hosts

/-- The task that a worker has from a queue and is in the middle of, whatever it submits or runs
inline on the way. -/
def hosted? : List (RingActivity ι α) → Option (Item ι α)
  | [.run t _, .loop _ _] => some t
  | _ :: below => hosted? below
  | [] => none

def Point.hosted? : RingPoint ι α → Option (Item ι α)
  | .busy _ top below => Pool.hosted? (top :: below)
  | .await _ _ => none

def finished (log : Log ι α) : List (Item ι α × Outcome) := log.filterMap fun e => finished? e.point

def Point.hosting (pt : RingPoint ι α) : Nat := pt.hosted?.toList.countP f

def Point.starting (pt : RingPoint ι α) : Nat := (executed? pt).toList.countP f

variable {f} {n : Nat} {c : Call ι α} {place : Place} {below : List (RingActivity ι α)}
  {p : Rings ι α}

theorem hosted?_submit (s : Submit (Ring.Push (Item ι α)) ι α) :
    hosted? (.submit s :: below) = hosted? below := by
  simp [hosted?]

theorem hosted?_over (t : Item ι α) (r : Run ι α) (s : Submit (Ring.Push (Item ι α)) ι α) :
    hosted? (.run t r :: .submit s :: below) = hosted? below := by
  cases below <;> simp [hosted?]

theorem Stacked.hosted?_run (h : Stacked n c place true below) (t : Item ι α) (r r' : Run ι α) :
    hosted? (.run t r :: below) = hosted? (.run t r' :: below) := by
  cases h with
  | worker hi => rfl
  | inline h => rw [hosted?_over, hosted?_over]

theorem Stacked.hosted?_resume {b : Bool} {x : RingActivity ι α}
    (h : Stacked n c place b (x :: below)) (policy : PanicPolicy) (o : Outcome) :
    hosted? (x.resume policy o :: below) = hosted? (x :: below) ∧
      executed? (.busy place (x.resume policy o) below) = none := by
  cases h with
  | worker hi => exact ⟨rfl, rfl⟩
  | run h => cases o <;> exact ⟨h.hosted?_run _ _ _, rfl⟩
  | inline h => exact ⟨by rw [Activity.resume, hosted?_submit, hosted?_submit], rfl⟩

theorem executed?_of_ne (t : Item ι α) {r : Run ι α} (h : r ≠ .begin) :
    executed? (.busy place (.run t r) below) = none := by
  cases r <;> first | rfl | exact absurd rfl h

theorem finished?_eq_none {pt : RingPoint ι α} (h : ended? pt = none) : finished? pt = none := by
  unfold finished?
  split
  · cases h
  · rfl

def Hosts (f : Item ι α → Bool) (pt : RingPoint ι α) (a : RingMove ι α) : Prop :=
  a.read (Point.starting f) (fun _ => 0) + pt.hosting f =
    (finished? pt).toList.countP (fun x => f x.1) + a.read (Point.hosting f) fun _ => 0

theorem hosts_of_eq {pt pt' : RingPoint ι α} {p' : Rings ι α} (hfinished : finished? pt = none)
    (hexecuted : executed? pt' = none) (hhosted : pt'.hosted? = pt.hosted?) :
    Hosts f pt (.go p' pt') := by
  rw [Hosts, Move.read, Point.starting, hexecuted, hfinished, Move.read, Point.hosting,
    Point.hosting, hhosted]
  rfl

theorem Run.hosts {t : Item ι α} {r : Run ι α} {a : TurnMove (Ring (Item ι α)) ι α (Run ι α)}
    (hs : Stacked n c place true below) (ha : a ∈ r.moves place t p) :
    Hosts f (.busy place (.run t r) below) (Point.land place below (a.map (.run t))) := by
  have hf := (Run.effect (n := n) ha).2
  rcases a with ⟨p', r' | ⟨x, k⟩⟩ | ⟨p', o⟩
  · exact hosts_of_eq (finished?_eq_none (Run.ended?_of_go ha)) (executed?_of_ne t hf)
      (hs.hosted?_run t r' r)
  · cases k with
    | run u => exact hf.elim
    | submit o =>
      refine hosts_of_eq (finished?_eq_none (Run.ended?_of_go ha)) rfl ?_
      exact (hosted?_submit (.begin o)).trans (hs.hosted?_run t x r)
  · obtain ⟨o', rfl⟩ := Run.eq_of_done ha
    cases hs with
    | worker hi =>
      change 0 + [t].countP f = [(t, o')].countP (fun x => f x.1) + 0
      cases h : f t <;> simp [h]
    | inline h =>
      obtain ⟨hhosted, hexecuted⟩ := (Stacked.inline h).hosted?_resume p'.panicPolicy o
      refine hosts_of_eq rfl hexecuted ?_
      rw [Point.hosted?, Point.hosted?, hhosted, hosted?_submit, hosted?_over]

variable [BEq ι]

theorem Point.hosts {pt : RingPoint ι α} {a : RingMove ι α} (hs : Framed n c pt)
    (ha : a ∈ pt.moves p) : Hosts f pt a := by
  cases Point.taken ha with
  | loop d hd =>
    obtain ⟨rfl, rfl, rfl, hi⟩ := hs
    rcases d with ⟨p', l' | ⟨x, k⟩⟩ | ⟨p', o⟩
    · rfl
    · cases k with
      | run t => exact Nat.add_comm _ _
      | submit o => rfl
    · rfl
  | run d hd => exact Run.hosts hs hd
  | submit d hd =>
    rcases d with ⟨p', s' | ⟨x, k⟩⟩ | ⟨p', o⟩
    · refine hosts_of_eq rfl rfl ?_
      rw [Point.hosted?, Point.hosted?, hosted?_submit, hosted?_submit]
    · refine hosts_of_eq rfl (by cases k <;> rfl) ?_
      cases k with
      | run t => rw [Point.hosted?, Point.hosted?, Callee.activity, hosted?_over, hosted?_submit]
      | submit o =>
        rw [Point.hosted?, Point.hosted?, Callee.activity, hosted?_submit, hosted?_submit,
          hosted?_submit]
    · have hbelow : Stacked n c _ false _ := hs
      cases hbelow with
      | caller o => rfl
      | run hrun =>
        obtain ⟨hhosted, hexecuted⟩ := (Stacked.run hrun).hosted?_resume p'.panicPolicy o
        refine hosts_of_eq rfl hexecuted ?_
        rw [Point.hosted?, Point.hosted?, hhosted, hosted?_submit]
  | shutdown d hd =>
    obtain ⟨rfl, rfl, rfl⟩ := hs
    rcases d with ⟨p', s' | ⟨x, k⟩⟩ | ⟨p', o⟩
    · rfl
    · cases k <;> rfl
    · rfl
  | await d hz hd => cases d <;> rfl

end Hosts

theorem noted_queued (i w : Nat) (v v' : View (Item ι α)) (f : Label ι → Bool) :
    (queuedTo w (noted i v v')).countP f = v.puts (fun t => f t.closure.label) w v' := by
  unfold noted
  split
  · rename_i t q e c single c'
    change _ = if q = w then (f t.closure.label).toNat else 0
    by_cases hq : q = w <;> cases h : f t.closure.label <;> simp [queuedTo, Event.queuedTo?, hq, h]
  · rfl
  · rename_i hpush hpop
    unfold View.puts
    split
    · exact (hpush _ _ _ _ _ _ rfl rfl).elim
    · rfl

theorem noted_taken (i w : Nat) (v v' : View (Item ι α)) (f : Label ι → Bool) :
    (takenFrom w (noted i v v')).countP f = v.gets (fun t => f t.closure.label) w v' := by
  unfold noted
  split
  · rfl
  · rename_i q d nap t b
    change _ = if q = w then (f t.closure.label).toNat else 0
    by_cases hq : q = w <;> cases h : f t.closure.label <;>
      simp [takenFrom, Event.takenFrom?, hq, h]
  · rename_i hpush hpop
    unfold View.gets
    split
    · exact (hpop _ _ _ _ _ rfl rfl).elim
    · rfl

section Noted

variable {p p' : Rings ι α} {i : Nat} {v v' : View (Item ι α)} {outcomes : List Outcome}
  {x x' : Dues} (h : Booked i p p' v v' outcomes x x')

include h

theorem Booked.length_stolen : (stolen p'.history).length =
    (stolen p.history).length + (stolen (noted i v v')).length := by
  have hnotes : stolen p'.history = stolen (noted i v v') ++ stolen p.history :=
    h.notes stolen_moved
  rw [hnotes, List.length_append, Nat.add_comm]

theorem Booked.countP_queuedTo (w : Nat) (f : Label ι → Bool) : (queuedTo w p'.history).countP f =
    v.puts (fun t => f t.closure.label) w v' + (queuedTo w p.history).countP f := by
  have hnotes : queuedTo w p'.history = queuedTo w (noted i v v') ++ queuedTo w p.history :=
    h.notes (queuedTo_moved w)
  rw [hnotes, List.countP_append, noted_queued]

theorem Booked.countP_takenFrom (w : Nat) (f : Label ι → Bool) : (takenFrom w p'.history).countP f =
    v.gets (fun t => f t.closure.label) w v' + (takenFrom w p.history).countP f := by
  have hnotes : takenFrom w p'.history = takenFrom w (noted i v v') ++ takenFrom w p.history :=
    h.notes (takenFrom_moved w)
  rw [hnotes, List.countP_append, noted_taken]

end Noted

theorem Sound.count {β : Type} {n cap : Nat} {f : β → Bool} {x x' : Core β} {G : Nat → Ghost β}
    {submitted begun : Nat} {o : Option Nat} {v v' : View β} {d : Deed β} {m : Multiset (Actor β)}
    (h : Sound n cap f x G submitted begun ((o, v) ::ₘ m)) (he : Effect n x v d x' v')
    (hn : n ≤ 2 ^ 63) (hb : claimed n G < 2 ^ 63) :
    x'.gate.semaphore.count.toInt + v.draws = x.gate.semaphore.count.toInt + v.adds := by
  cases he with
  | still hs =>
    obtain ⟨-, -, hadds, -⟩ := hs.gate
    have hdraws : v.draws = 0 := by cases hs <;> rfl
    rw [hadds, hdraws]
  | pass ha =>
    cases Semaphore.Wait.step ha (h.fits_sub hn) with
    | pass hz hc hp =>
      simp only [Core.setGate, Gate.setSemaphore, View.draws, View.adds]
      omega
  | sink ha =>
    cases Semaphore.Wait.step ha (h.fits_sub hn) with
    | sink hz hc hp =>
      simp only [Core.setGate, Gate.setSemaphore, View.draws, View.adds]
      omega
  | acquire ha =>
    cases Semaphore.Wait.step ha (fits_rest _) with
    | acquire hc hp => simp only [Core.setGate, Gate.setSemaphore, View.draws, View.adds, hc]
  | add ha =>
    cases Semaphore.Post.step ha (h.fits_add hb) with
    | add hz hc hp =>
      simp only [Core.setGate, Gate.setSemaphore, View.draws, View.adds]
      omega
  | owe ha =>
    cases Semaphore.Post.step ha (h.fits_add hb) with
    | owe hz hc hp =>
      simp only [Core.setGate, Gate.setSemaphore, View.draws, View.adds]
      omega
  | release ha =>
    cases Semaphore.Post.step ha (fits_rest _) with
    | release hc hp => simp only [Core.setGate, Gate.setSemaphore, View.draws, View.adds, hc]
  | _ => rfl

section Runs

def hosts? : RingThread ι α → Option (Item ι α)
  | .running _ pt => pt.hosted?
  | .finished _ _ => none

def threadStarting : RingThread ι α → Nat
  | .running _ pt => pt.starting f
  | .finished _ _ => 0

def threadHosting (t : RingThread ι α) : Nat := (hosts? t).toList.countP f

def threadDues : RingThread ι α → Dues
  | .running _ pt => pt.dues
  | .finished _ _ => 0

variable {f}

theorem finished_cons (e : Crew.Entry (Rings ι α) (Call ι α) (RingPoint ι α) (Reply α))
    (log : Log ι α) : finished (e :: log) = (finished? e.point).toList ++ finished log := by
  cases h : finished? e.point <;> simp [finished, h]

theorem executed_cons (e : Crew.Entry (Rings ι α) (Call ι α) (RingPoint ι α) (Reply α))
    (log : Log ι α) : executed (e :: log) = (executed? e.point).toList ++ executed log := by
  cases h : executed? e.point <;> simp [executed, h]

theorem Serves.enters {n : Nat} {k : RingCrew ι α} {c : Call ι α} (h : Serves n k c) :
    Enters n c := by
  cases c with
  | work i => exact (Bool.and_eq_true_iff.1 h).1
  | _ => rfl

theorem new_books {c : Config} {cores : Nat} {p : Rings ι α} (hp : Pool.new c cores = .ok p) :
    p.stats = 0 ∧ p.panicPolicy = c.panicPolicy ∧ moved p.history = [] ∧ p.gate = {} := by
  simp only [Pool.new] at hp
  split at hp
  · cases hp
  · split at hp
    · cases hp
    · obtain rfl := Except.ok.inj hp
      refine ⟨?_, rfl, rfl, rfl⟩
      rw [stats_eq]
      simp only [ofQueue, List.map_replicate, List.sum_replicate]
      exact (congrArg _ (nsmul_zero _)).trans rfl

variable [BEq ι] {c : Config} {cores : Nat} {p : Rings ι α} {log : Log ι α} {k : RingCrew ι α}

theorem run_hosts {allowed : RingCrew ι α → Call ι α → Prop}
    (hin : ∀ k c, allowed k c → Enters p.size c) (h : Crew.Run calls allowed ⟨p, []⟩ log k) :
    (executed log).countP f + Crew.total (threadStarting f) k =
      (finished log).countP (fun x => f x.1) + Crew.total (threadHosting f) k := by
  induction h with
  | refl => rfl
  | start _ d _ ih =>
    have h1 : threadStarting f (.running d d.enter) = 0 := by cases d <;> rfl
    have h2 : threadHosting f (.running d d.enter) = 0 := by cases d <;> rfl
    rw [Crew.total_start, Crew.total_start]
    change _ + (threadStarting f (.running d d.enter) + _) = _ +
      (threadHosting f (.running d d.enter) + _)
    omega
  | move hr ha ih =>
    rename_i log s before after d pt a
    have hframed := (run_framed hin hr).2 d pt (by simp)
    have hhosts := Point.hosts (f := f) hframed ha
    have h1 : threadStarting f (a.land d).2 = a.read (Point.starting f) fun _ => 0 := by
      cases a <;> rfl
    have h2 : threadHosting f (a.land d).2 = a.read (Point.hosting f) fun _ => 0 := by
      cases a <;> rfl
    rw [Crew.total_split, Crew.total_split, Crew.total_state (threadStarting f) _ s,
      Crew.total_state (threadHosting f) _ s, h1, h2, executed_cons, finished_cons,
      List.countP_append, List.countP_append]
    rw [Crew.total_split, Crew.total_split] at ih
    change _ + (pt.starting f + _) = _ + (pt.hosting f + _) at ih
    rw [Hosts] at hhosts
    change pt.starting f + _ + _ = (finished? pt).toList.countP (fun x => f x.1) + _ + _
    omega

/-- What all threads have done comes to `total`, whether it has been counted or not. -/
structure Squared (n : Nat) (log : Log ι α) (k : RingCrew ι α) (total : Stats) : Prop where
  policy : k.state.panicPolicy = .contain
  regular : ∀ c pt, .running c pt ∈ k.threads → pt.Regular n
  sheet : k.state.stats + (Crew.total threadDues k).1 = total
  tries : total.steals + (Crew.total threadDues k).2 ≤ total.trySteals
  count : k.state.gate.semaphore.count.toInt + total.semaphoreWaits = total.semaphorePosts
  runs : total.tasksRun = (finished log).length
  panics : total.panics = (finished log).countP fun x => x.2.isPanic
  steals : total.steals = (stolen k.state.history).length
  queued : ∀ w (f : Label ι → Bool), (queuedTo w k.state.history).countP f =
    puts n (fun t => f t.closure.label) w log
  taken : ∀ w (f : Label ι → Bool), (takenFrom w k.state.history).countP f =
    gets n (fun t => f t.closure.label) w log

omit [BEq ι] in
theorem Squared.move {s : Rings ι α} {before after : List (RingThread ι α)} {d : Call ι α}
    {pt : RingPoint ι α} {a : RingMove ι α} {total : Stats} {n : Nat}
    (h : Squared n log ⟨s, before ++ .running d pt :: after⟩ total)
    (hb : Booked (d.worker?.getD 0) s a.state (pt.view n) (a.read (Point.view n) fun _ => .away)
      ((finished? pt).toList.map Prod.snd) pt.dues (a.read Point.dues fun _ => 0))
    (hr : a.read (Point.Regular n) fun _ => True)
    (hc : a.state.gate.semaphore.count.toInt + (pt.view n).draws =
      s.gate.semaphore.count.toInt + (pt.view n).adds) :
    ∃ total, Squared n (⟨before.length, d, s, pt, a⟩ :: log)
      ⟨(a.land d).1, before ++ (a.land d).2 :: after⟩ total := by
  obtain ⟨tries, hsheet, htries⟩ := hb.sheet
  have hland : threadDues (a.land d).2 = a.read Point.dues fun _ => 0 := by cases a <;> rfl
  have hsplit : Crew.total threadDues ⟨s, before ++ .running d pt :: after⟩ =
    pt.dues + Crew.total threadDues ⟨s, before ++ after⟩ := Crew.total_split _ _ _ _ _
  have h1 := h.sheet
  have h2 := h.tries
  have h3 : s.gate.semaphore.count.toInt + total.semaphoreWaits = total.semaphorePosts := h.count
  have h4 := h.runs
  rw [hsplit] at h1 h2
  rw [Move.fst_land]
  refine ⟨total + earned (d.worker?.getD 0) (pt.view n) (a.read (Point.view n) fun _ => .away)
    ((finished? pt).toList.map Prod.snd) tries, hb.policy.trans h.policy, ?_, ?_, ?_, ?_, ?_, ?_,
    ?_, fun w f => ?_, fun w f => ?_⟩
  · exact Crew.running_land h.regular (by rintro s' pt' rfl; exact hr)
  · rw [Crew.total_split, Crew.total_state _ _ s, hland, ← h1, Prod.fst_add, Prod.fst_add,
      ← add_assoc, hsheet]
    abel
  · rw [Crew.total_split, Crew.total_state _ _ s, hland]
    simp only [Stats.add_eq, earned, Prod.snd_add] at h2 ⊢
    omega
  · simp only [Stats.add_eq, earned]
    omega
  · simp only [Stats.add_eq, earned, finished_cons, List.length_append, List.length_map]
    omega
  · simp only [Stats.add_eq, earned, finished_cons, List.countP_append, List.countP_map]
    exact (Nat.add_comm _ _).trans (congrArg _ h.panics)
  · exact (congrArg (· + _) h.steals).trans hb.length_stolen.symm
  · exact (hb.countP_queuedTo w f).trans (congrArg _ (h.queued w f))
  · exact (hb.countP_takenFrom w f).trans (congrArg _ (h.taken w f))

theorem run_squared (hp : Pool.new c cores = .ok p) (hpolicy : c.panicPolicy = .contain)
    (hn : p.size ≤ 2 ^ 63) (h : Crew.Run calls (fun k c => Serves p.size k c) ⟨p, []⟩ log k)
    (hb : claims log < 2 ^ 63) : ∃ total, Squared p.size log k total := by
  induction h with
  | refl =>
    obtain ⟨h1, h2, h3, h4⟩ := new_books hp
    refine ⟨0, h2.trans hpolicy, by simp, ?_, le_rfl, ?_, rfl, rfl, ?_, fun w f => ?_,
      fun w f => ?_⟩
    · rw [h1]
      rfl
    · rw [h4]
      rfl
    · rw [← stolen_moved, h3]
      rfl
    · rw [← queuedTo_moved, h3]
      rfl
    · rw [← takenFrom_moved, h3]
      rfl
  | @start log k hr d hd ih =>
    obtain ⟨total, h⟩ := ih hb
    have hdues : threadDues (.running d d.enter : RingThread ι α) = 0 := by cases d <;> rfl
    refine ⟨total, { h with regular := ?_, sheet := ?_, tries := ?_ }⟩
    · refine Crew.running_start h.regular ?_
      cases d <;> trivial
    · rw [Crew.total_start]
      change k.state.stats + (threadDues (.running d d.enter) + _).1 = _
      rw [hdues, zero_add]
      exact h.sheet
    · rw [Crew.total_start]
      change total.steals + (threadDues (.running d d.enter) + _).2 ≤ _
      rw [hdues, zero_add]
      exact h.tries
  | move hr ha ih =>
    rename_i log s before after d pt a
    have hb' := claims_lt (List.suffix_cons _ _) hb
    -- no more is posted than has been claimed, so that the count of the semaphore does not wrap
    obtain ⟨G, hsound, hclaimed, hk⟩ := run_keeps hp hn hr hb' (fun _ => true)
      (fun _ G _ => claimed p.size G < 2 ^ 63) (fun _ => True) trivial (fun _ _ _ => trivial)
      (by simp [claimed, Ghost.start]) (fun _ _ _ _ h => h)
      (fun _ _ _ _ _ _ _ _ _ _ _ _ _ _ h _ => h)
    obtain ⟨total, h⟩ := ih hb'
    obtain ⟨hsane, -⟩ := hk (.running d pt) (by simp)
    have hsize : s.size = p.size := core_size s ▸ hsound.size
    obtain ⟨he, -⟩ := Point.effect hsize hsound.running hsane ha
    obtain ⟨hbooked, hregular⟩ := Point.booked hsize h.policy hsane (h.regular d pt (by simp)) ha
    refine h.move hbooked hregular ?_
    rw [Crew.total_split] at hsound
    have hsound : Sound _ _ _ _ _ _ _ ((d.worker?, pt.view p.size) ::ₘ _) := hsound
    exact hsound.count he hn hclaimed

end Runs

section Paused

variable {f} {n cap : Nat} {c : Call ι α} {pt : RingPoint ι α} {k : RingCrew ι α}

theorem Paused.stake (h : Paused n c pt) (q : Nat) : (pt.view n).stake q = 0 := by
  cases h with
  | inside t r hs => cases r <;> rfl
  | _ => rfl

theorem Paused.hands (h : Paused n c pt) :
    (pt.view n).inHand f = pt.due f + pt.starting f ∧ (pt.view n).inPlay f = 0 := by
  cases h with
  | await slot w => exact ⟨rfl, rfl⟩
  | asleep place i => exact ⟨rfl, rfl⟩
  | inside t r hs =>
    cases r with
    | begin =>
      refine ⟨?_, rfl⟩
      cases hs with
      | worker hi => exact (countP_toList_some t).symm.trans (Nat.zero_add _).symm
      | inline hs => rfl
    | _ => exact ⟨rfl, rfl⟩

theorem Paused.dues (h : Paused n c pt) :
    pt.dues = ({ semaphoreWaits := dozes (.running c pt) }, 0) := by
  cases h <;> rfl

def ThreadPaused (n : Nat) : RingThread ι α → Prop
  | .running c pt => Paused n c pt
  | .finished _ _ => True

theorem threads_paused {G : Nat → Ghost (Item ι α)} (hk : ∀ t ∈ k.threads, Knows n cap G t)
    (hsubmit : ∀ c place s below, .running c (.busy place (.submit s) below) ∉ k.threads)
    (hwork : ∀ i pt, .running (.work i) pt ∈ k.threads → Asleep pt ∨ Inside pt) :
    ∀ t ∈ k.threads, ThreadPaused n t := by
  intro t ht
  cases t with
  | running c pt =>
    refine (hk _ ht).1.paused (fun place s below he => ?_) fun i hc => ?_
    · exact hsubmit c place s below (he ▸ ht)
    · exact hwork i pt (hc ▸ ht)
  | finished c r => trivial

variable (hpaused : ∀ t ∈ k.threads, ThreadPaused n t)

include hpaused

theorem tot_eq_zero {F : View (Item ι α) → Nat}
    (hF : ∀ c pt, Paused n c pt → F (pt.view n) = 0) (haway : F .away = 0) :
    tot F (Crew.total (share n) k) = 0 := by
  rw [tot_total_share]
  refine Crew.total_eq_zero fun t ht => ?_
  cases t with
  | running c pt => exact hF c pt (hpaused _ ht)
  | finished c r => exact haway

theorem tot_inHand : tot (View.inHand f) (Crew.total (share n) k) =
    Crew.total (threadDue f) k + Crew.total (threadStarting f) k := by
  rw [tot_total_share, ← Crew.total_add]
  refine congrArg List.sum (List.map_congr_left fun t ht => ?_)
  cases t with
  | running c pt => exact (hpaused _ ht : Paused n c pt).hands.1
  | finished c r => rfl

theorem total_dues : Crew.total threadDues k = ({ semaphoreWaits := asleep k }, 0) := by
  rw [asleep, Crew.total, Crew.total]
  obtain ⟨s, threads⟩ := k
  induction threads with
  | nil => rfl
  | cons t ts ih =>
    have ht : threadDues t = ({ semaphoreWaits := dozes t }, 0) := by
      cases t with
      | running c pt => exact (hpaused _ List.mem_cons_self : Paused n c pt).dues
      | finished c r => rfl
    rw [List.map_cons, List.sum_cons, ih fun u hu => hpaused u (List.mem_cons_of_mem t hu), ht,
      List.map_cons, List.sum_cons]
    rfl

variable {x : Core (Item ι α)} {G : Nat → Ghost (Item ι α)} {submitted settled : Nat}
  (h : Firm n cap f x G submitted settled (Crew.total (share n) k))

include h

theorem Firm.stock_items {q : Nat} {r : Ring (Item ι α)} (hr : x.queues[q]? = some r)
    (g : Item ι α → Bool) : (Holding.items r).countP g = (G q).stock g := by
  have ht := h.rings q r hr
  have hidle : Idle fun hd => tot (fun v => v.stake q hd) (Crew.total (share n) k) :=
    fun s p _ => tot_eq_zero hpaused (fun c pt h => congrFun (h.stake q) (s, p)) rfl
  rw [(ht.holds hidle).items_eq, ht.orderly.stock_eq hidle]

theorem Firm.stocked_items : (x.queues.flatMap Holding.items).countP f = stocked n f G := by
  rw [List.countP_flatMap, stocked, ← h.size, Finset.sum_range, ← Fin.sum_univ_fun_getElem]
  exact Finset.sum_congr rfl fun q _ => h.stock_items hpaused (List.getElem?_eq_getElem q.2) f

end Paused

section Audit

def hosted (k : RingCrew ι α) : List (Item ι α) := k.threads.filterMap hosts?

def stored (p : Rings ι α) : List (Item ι α) := p.workers.flatMap fun w => Holding.items w.queue

structure Audited (log : Log ι α) (k : RingCrew ι α) : Prop where
  tasks : (queued log).Perm ((finished log).map Prod.fst ++ hosted k ++ stored k.state)
  accepted : (queued log).length =
    k.state.stats.tasksRun + (hosted k).length + (stored k.state).length
  tasksRun : k.state.stats.tasksRun = (finished log).length
  panics : k.state.stats.panics = (finished log).countP fun x => x.2.isPanic
  panics_le : k.state.stats.panics ≤ k.state.stats.tasksRun
  owners : ∀ w x, k.state.workers[w]? = some x → (queuedTo w k.state.history).Perm
    (takenFrom w k.state.history ++ (Holding.items x.queue).map fun t => t.closure.label)
  steals : k.state.stats.steals = (stolen k.state.history).length
  steals_le : k.state.stats.steals ≤ k.state.stats.trySteals
  permits : k.state.stats.semaphorePosts =
    k.state.stats.semaphoreWaits + k.state.gate.semaphore.banked

theorem countP_hosted (k : RingCrew ι α) :
    (hosted k).countP f = Crew.total (threadHosting f) k := by
  rw [hosted, List.filterMap_eq_flatMap_toList, List.countP_flatMap]
  rfl

variable [BEq ι] {c : Config} {cores : Nat} {p : Rings ι α} {log : Log ι α} {k : RingCrew ι α}
  (hp : Pool.new c cores = .ok p) (hn : p.size ≤ 2 ^ 63)
  (h : Crew.Run calls (fun k c => Serves p.size k c) ⟨p, []⟩ log k) (hb : claims log < 2 ^ 63)
  (hpaused : ∀ t ∈ k.threads, ThreadPaused p.size t)

include hp hn h hb hpaused

theorem run_accepted : (queued log).countP f =
    ((finished log).map Prod.fst).countP f + (hosted k).countP f + (stored k.state).countP f := by
  obtain ⟨G, hs, -⟩ := run_sound hp hn h hb f
  have hbooks := run_books (f := f) hp (fun _ _ => Serves.enters) h hb
  have hhosts := run_hosts (f := f) (fun _ _ => Serves.enters) h
  have hkept := hs.kept
  have hplay : tot (View.inPlay f) (Crew.total (share p.size) k) = 0 :=
    tot_eq_zero hpaused (fun _ _ h => h.hands.2) rfl
  have hstored : (stored k.state).countP f = stocked p.size f G := by
    rw [← hs.toFirm.stocked_items hpaused, stored, core, List.flatMap_map]
  -- what is in hand here has yet to begin, as a worker's task or inline
  rw [tot_inHand hpaused, hplay] at hkept
  rw [countP_hosted, hstored, List.countP_map]
  change _ = (finished log).countP (fun x => f x.1) + _ + _
  omega

theorem run_owners (hpolicy : c.panicPolicy = .contain) {w : Nat} {x : Worker (Ring (Item ι α))}
    (hx : k.state.workers[w]? = some x) (f : Label ι → Bool) :
    (queuedTo w k.state.history).countP f = (takenFrom w k.state.history).countP f +
      ((Holding.items x.queue).map fun t => t.closure.label).countP f := by
  obtain ⟨total, hsquared⟩ := run_squared hp hpolicy hn h hb
  obtain ⟨G, ⟨hs, -, hflows⟩, -⟩ :=
    run_flows hp (fun _ _ => Serves.enters) h hb fun t => f t.closure.label
  have hitems := hs.stock_items hpaused (q := w) (r := x.queue) (by simp [core, hx])
    fun t => f t.closure.label
  have hflow := hflows w
  rw [hsquared.queued w f, hsquared.taken w f, List.countP_map]
  change _ = _ + (Holding.items x.queue).countP fun t => f t.closure.label
  omega

theorem run_permits {total : Stats} (hsquared : Squared p.size log k total) :
    total.semaphorePosts + asleep k = total.semaphoreWaits + k.state.gate.semaphore.banked := by
  obtain ⟨G, hs, -⟩ := run_sound hp hn h hb fun _ => true
  have hcount := hsquared.count
  have hparked := hs.parked
  have howes : tot View.owes (Crew.total (share p.size) k) = 0 :=
    tot_eq_zero hpaused (fun _ _ h => h.quiet.2.2) rfl
  rw [← asleep_eq, howes] at hparked
  simp only [core] at hparked
  simp only [Semaphore.banked]
  omega

omit hpaused in
theorem run_audited (hpolicy : c.panicPolicy = .contain)
    (hsubmit : ∀ c place s below, .running c (.busy place (.submit s) below) ∉ k.threads)
    (hwork : ∀ i pt, .running (.work i) pt ∈ k.threads → Asleep pt ∨ Inside pt) :
    Audited log k := by
  classical
  obtain ⟨total, hsquared⟩ := run_squared hp hpolicy hn h hb
  obtain ⟨G, -, hk⟩ := run_sound hp hn h hb fun _ => true
  have hpaused := threads_paused hk hsubmit hwork
  have hsheet : k.state.stats + { semaphoreWaits := asleep k } = total := by
    rw [← hsquared.sheet, total_dues hpaused]
  have htries : total.steals ≤ total.trySteals := by
    simpa [total_dues hpaused] using hsquared.tries
  have hruns : k.state.stats.tasksRun = (finished log).length :=
    (congrArg Stats.tasksRun hsheet).trans hsquared.runs
  have hpanics : k.state.stats.panics = (finished log).countP fun x => x.2.isPanic :=
    (congrArg Stats.panics hsheet).trans hsquared.panics
  have htasks : (queued log).Perm ((finished log).map Prod.fst ++ hosted k ++ stored k.state) :=
    List.perm_iff_count.2 fun t => by
      rw [List.count_append, List.count_append]
      exact run_accepted (· == t) hp hn h hb hpaused
  refine ⟨htasks, ?_, hruns, hpanics, ?_, fun w x hx => ?_, ?_, ?_, ?_⟩
  · rw [htasks.length_eq, List.length_append, List.length_append, List.length_map, hruns]
  · rw [hruns, hpanics]
    exact List.countP_le_length
  · refine List.perm_iff_count.2 fun t => ?_
    rw [List.count_append]
    exact run_owners hp hn h hb hpaused hpolicy hx (· == t)
  · exact (congrArg Stats.steals hsheet).trans hsquared.steals
  · subst hsheet
    exact htries
  · have hpermits := run_permits hp hn h hb hpaused hsquared
    subst hsheet
    change k.state.stats.semaphorePosts + 0 + asleep k =
      k.state.stats.semaphoreWaits + asleep k + _ at hpermits
    omega

end Audit

def hurl (i : Nat) : Call Nat Unit := .submit (.task i .small .nothing (some .other))

def holding (w i : Nat) : RingThread Nat Unit :=
  .running (.work w)
    (.busy (.worker w) (.run ⟨.small, .task i .hold none none⟩ .held) [.loop w .working])

/-- Worker 0 sleeps, and worker 1 is about to, when two tasks come and each brings a permit. Worker
1 finds its own, which panics, and then steals the other one. The third task comes before worker 0
is awake, and the last one stays where it is. -/
def surplus : List (Crew.Cue (Call Nat Unit)) :=
  .start (.work 0) :: steps 0 13 ++ .start (.work 1) :: steps 1 6 ++
    .start (hold 1) :: steps 2 13 ++ .start (hurl 2) :: steps 3 12 ++ steps 1 28 ++
    .start (hold 3) :: steps 4 12 ++ steps 0 10 ++ .start (ask 4) :: steps 5 11

def surplusThreads : List (RingThread Nat Unit) :=
  [holding 0 3, holding 1 1, .finished (hold 1) (.left .returned),
    .finished (hurl 2) (.left .returned), .finished (hold 3) (.left .returned),
    .finished (ask 4) (.left .returned)]

theorem run_audited_surplus : ∃ (log : Log Nat Unit) (k : RingCrew Nat Unit),
    Pool.new twin 0 = .ok twinRings ∧ twinRings.size ≤ 2 ^ 63 ∧
      Crew.Run calls (fun k c => Serves twinRings.size k c) ⟨twinRings, []⟩ log k ∧
      claims log < 2 ^ 63 ∧ twin.panicPolicy = .contain ∧ k.threads = surplusThreads ∧
      k.state.stats = ⟨3, 1, 2, 1, 1, 1⟩ ∧ k.state.gate.semaphore.banked = 2 ∧
      ((queued log).length, (hosted k).length, (stored k.state).length) = (4, 2, 1) ∧
      Audited log k := by
  have hnew : Pool.new twin 0 = .ok twinRings := by rfl
  have hp : (Crew.play calls (Serves 2) surplus [] ⟨twinRings, []⟩).map (fun x =>
      (x.2.threads, claims x.1, x.2.state.stats, x.2.state.gate.semaphore.banked,
        (queued x.1).length, (hosted x.2).length, (stored x.2.state).length)) =
      some (surplusThreads, 4, ⟨3, 1, 2, 1, 1, 1⟩, 2, 4, 2, 1) := by rfl
  obtain ⟨log, k, hrun, hx⟩ := Crew.exists_run_of_play (fun _ _ h => h) hp
  obtain ⟨ht, hc, hstats, hbanked, hlengths⟩ := by simpa only [Prod.mk.injEq] using hx
  have hclaims : claims log < 2 ^ 63 := by rw [hc]; decide
  refine ⟨log, k, hnew, by decide, hrun, hclaims, rfl, ht, hstats, hbanked, by simpa using hlengths,
    run_audited hnew (by decide) hrun hclaims rfl ?_ ?_⟩
  · simp [ht, surplusThreads, holding]
  · intro i pt hpt
    rcases (by simpa [ht, surplusThreads, holding, hold, hurl, ask] using hpt :
      (i = 0 ∧ pt = _) ∨ i = 1 ∧ pt = _) with ⟨-, rfl⟩ | ⟨-, rfl⟩ <;>
    exact .inr trivial

end Pool

end WorkStealing
