import WorkStealing.Proofs.Pool.Once
import WorkStealing.Proofs.Pool.Outweighed
import WorkStealing.Queue.Fifo

namespace WorkStealing.Pool

section Runs

variable {ι α : Type}

def dozes : RingThread ι α → Nat
  | .running _ (.busy _ (.loop _ (.search (.sleep (.wait .acquire)))) _) => 1
  | _ => 0

def asleep (k : RingCrew ι α) : Nat := Crew.total dozes k

def Inside : RingPoint ι α → Prop
  | .busy _ (.run _ _) _ => True
  | _ => False

/-- Whoever passes over a queue, in the last search before sleeping, passes over an empty one. -/
def Sighted (n : Nat) (log : Log ι α) : Prop :=
  ∀ e ∈ log, ∀ w d i o, e.point.view n = .pop w d (some (i, o)) →
    (e.move.read (Point.view n) fun _ => .away) = .recheck i (o + 1) →
    ∀ x, e.before.workers[w]? = some x → x.queue.isEmpty

theorem notify_stuck (k : Gate.Notify) : (notifyView k : View (Item ι α)).stuck = 0 := by
  cases k with
  | look limit => rfl
  | post m q => cases q <;> rfl

theorem Wake.stuck (w : Wake) : (w.view : View (Item ι α)).stuck = 0 := by
  cases w with
  | notify k => exact notify_stuck k
  | count posted => rfl

theorem Shutdown.stuck (n : Nat) (s : Shutdown (Ring.Pop (Item ι α)) ι α) :
    (s.view n).stuck = 0 := by
  cases s with
  | notify waiting k => exact notify_stuck k
  | drain i d k =>
    rw [Shutdown.view]
    split <;> rfl
  | _ => rfl

theorem dozes_eq (n : Nat) (c : Call ι α) (pt : RingPoint ι α) :
    dozes (.running c pt) = (pt.view n).stuck := by
  rcases pt with ⟨place, top, below⟩ | ⟨slot, w⟩
  · cases top with
    | loop i l =>
      cases l with
      | search s =>
        cases s with
        | steal left s => cases s <;> rfl
        | sleep s =>
          cases s with
          | recheck k =>
            cases k with
            | steal s => cases s <;> rfl
            | _ => rfl
          | retract x => cases x <;> rfl
          | wait w => cases w <;> rfl
          | _ => rfl
        | _ => rfl
      | _ => rfl
    | run t r => cases r <;> rfl
    | submit s =>
      cases s with
      | push s h => cases s <;> rfl
      | pushChunk r start pushed s => cases s <;> rfl
      | wake w h => exact w.stuck.symm
      | wakeAll r start w => exact w.stuck.symm
      | _ => rfl
    | shutdown unwinding s => exact (s.stuck n).symm
  · rfl

theorem asleep_eq (n : Nat) (k : RingCrew ι α) :
    asleep k = tot View.stuck (Crew.total (share n) k) := by
  simp only [asleep, Crew.total]
  induction k.threads with
  | nil => rfl
  | cons t ts ih =>
    rw [List.map_cons, List.map_cons, List.sum_cons, List.sum_cons, share, Multiset.singleton_add,
      tot_cons, ih]
    cases t with
    | running c pt => rw [dozes_eq n c pt]; rfl
    | finished c r => rfl

/-- Where threads are once nobody submits and every worker is asleep or in the middle of a task. -/
inductive Paused (n : Nat) (c : Call ι α) : RingPoint ι α → Prop where
  | await (slot : Nat) (w : ResultSlot.Await) : Paused n c (.await slot w)
  | asleep (place : Place) (i : Nat) :
    Paused n c (.busy place (.loop i (.search (.sleep (.wait .acquire)))) [])
  | inside {place : Place} {below : List (RingActivity ι α)} (t : Item ι α) (r : Run ι α)
    (hs : Stacked n c place true below) : Paused n c (.busy place (.run t r) below)

theorem Sane.paused {n : Nat} {c : Call ι α} {pt : RingPoint ι α} (hs : Sane n c pt)
    (hsubmit : ∀ place s below, pt ≠ .busy place (.submit s) below)
    (hwork : ∀ i, c = .work i → Asleep pt ∨ Inside pt) : Paused n c pt := by
  rcases pt with ⟨place, top, below⟩ | ⟨slot, w⟩
  · cases top with
    | loop i l =>
      obtain ⟨rfl, -, rfl, -⟩ := hs
      have h := (hwork i rfl).resolve_right id
      unfold Asleep at h
      split at h
      · rename_i he
        cases he
        exact .asleep _ i
      · exact h.elim
    | run t r => exact .inside t r hs
    | submit s => exact absurd rfl (hsubmit place s below)
    | shutdown unwinding s => exact hs.elim
  · exact .await slot w

theorem Paused.quiet {n : Nat} {c : Call ι α} {pt : RingPoint ι α} (h : Paused n c pt) :
    (pt.view n).owing = 0 ∧ (pt.view n).adds = 0 ∧ (pt.view n).owes = 0 := by
  cases h with
  | inside t r hs => cases r <;> exact ⟨rfl, rfl, rfl⟩
  | _ => exact ⟨rfl, rfl, rfl⟩

variable [BEq ι] {c : Config} {cores : Nat} {p : Rings ι α} {log : Log ι α} {k : RingCrew ι α}

theorem run_outweighed (hp : Pool.new c cores = .ok p) (hn : p.size ≤ 2 ^ 63)
    (h : Crew.Run calls (fun k c => Serves p.size k c) ⟨p, []⟩ log k) (hb : claims log < 2 ^ 63)
    (hs : Sighted p.size log) : ∃ G : Nat → Ghost (Item ι α),
      Sound p.size c.queueCapacity.toNat (fun _ => true) (core k.state) G
        ((submitted log).countP fun _ => true) ((begun log).countP fun _ => true)
        (Crew.total (share p.size) k) ∧
      Outweighed p.size (core k.state).gate G (Crew.total (share p.size) k) ∧
      ∀ t ∈ k.threads, Knows p.size c.queueCapacity.toNat G t := by
  refine run_keeps hp hn h hb _ (Outweighed p.size) (Sighted p.size) hs
    (fun e log hs x hx => hs x (List.mem_cons_of_mem e hx)) outweighed_start
    (fun _ _ _ _ h => h.join) ?_
  intro e log G H m o s b hs hsound hk he hle hc hb h
  refine h.step hsound hk he hle hc hn hb fun w d i o r hv hv' hr => ?_
  obtain ⟨x, hx, rfl⟩ : ∃ x, e.before.workers[w]? = some x ∧ x.queue = r := by
    simpa [core] using hr
  exact hs e List.mem_cons_self w d i o hv hv' x hx

theorem queued_add_asleep_le (hp : Pool.new c cores = .ok p) (hn : p.size ≤ 2 ^ 63)
    (h : Crew.Run calls (fun k c => Serves p.size k c) ⟨p, []⟩ log k) (hb : claims log < 2 ^ 63)
    (hs : Sighted p.size log)
    (hsubmit : ∀ c place s below, .running c (.busy place (.submit s) below) ∉ k.threads)
    (hwork : ∀ i pt, .running (.work i) pt ∈ k.threads → Asleep pt ∨ Inside pt)
    (hz : k.state.gate.semaphore.permits = 0) (hsome : 0 < asleep k) :
    (k.state.workers.map fun w => w.queue.length.toNat).sum + asleep k ≤ p.size := by
  obtain ⟨G, hsound, hout, hk⟩ := run_outweighed hp hn h hb hs
  rw [asleep_eq p.size] at hsome ⊢
  have hidle : ∀ a ∈ Crew.total (share p.size) k, a.2.owing = 0 ∧ a.2.adds = 0 ∧ a.2.owes = 0 := by
    intro a ha
    obtain ⟨t, ht, rfl⟩ := mem_total_share.1 ha
    cases t with
    | running c pt =>
      refine ((hk _ ht).1.paused (fun place s below he => ?_) fun i hc => ?_).quiet
      · exact hsubmit c place s below (he ▸ ht)
      · exact hwork i pt (hc ▸ ht)
    | finished c r => exact ⟨rfl, rfl, rfl⟩
  have hle := hsound.length_le hout hidle hz hsome
  simpa [core, Function.comp_def] using hle

end Runs

def twin : Config := { workerCount := some 2, queueCapacity := 2, spinCount := 0 }

def hold (i : Nat) : Call Nat Unit := .submit (.task i .small .hold none)

def steps (i n : Nat) : List (Crew.Cue (Call Nat Unit)) := List.replicate n (.move i 0)

/-- Both workers sleep. The first task goes to the queue of the first worker and wakes the second
one, which finds its own queue empty; the second task goes to that queue and wakes the first
worker, which takes the first task; and the second worker finds the other queue empty as well. -/
def cross (sleep₀ sleep₁ place own push take rest : Nat) : List (Crew.Cue (Call Nat Unit)) :=
  .start (.work 0) :: steps 0 sleep₀ ++ .start (.work 1) :: steps 1 sleep₁ ++
    .start (hold 1) :: steps 2 place ++ steps 1 own ++ .start (ask 2) :: steps 3 push ++
    steps 0 take ++ steps 1 rest

def crossed {E D : Type} : List (Thread (Call Nat Unit) (Point E D Nat Unit) (Reply Unit)) :=
  [.running (.work 0)
      (.busy (.worker 0) (.run ⟨.small, .task 1 .hold none none⟩ .held) [.loop 0 .working]),
    .running (.work 1) (.busy (.worker 1) (.loop 1 (.search (.sleep (.wait .acquire)))) []),
    .finished (hold 1) (.left .returned), .finished (ask 2) (.left .returned)]

def twinRings : Rings Nat Unit :=
  { ofQueue ⟨#[⟨0, none⟩, ⟨1, none⟩], 1, .inOrder 1, 0, 0⟩ 2 twin with
    history := [.notice (.started 2 2)] }

def sighted (n : Nat) (log : Log Nat Unit) : Bool :=
  log.all fun e =>
    match e.point.view n, e.move.read (Point.view n) fun _ => .away with
    | .pop w _ (some _), .recheck _ _ => e.before.workers[w]?.all fun x => x.queue.isEmpty
    | _, _ => true

theorem sighted_of {n : Nat} {log : Log Nat Unit} (h : sighted n log) : Sighted n log := by
  intro e he w d i o hv hv' x hx
  have := List.all_eq_true.1 h e he
  simpa only [hv, hv', hx, Option.all_some] using this

theorem queued_add_asleep_le_cross : ∃ (log : Log Nat Unit) (k : RingCrew Nat Unit),
    Pool.new twin 0 = .ok twinRings ∧
      Crew.Run calls (fun k c => Serves twinRings.size k c) ⟨twinRings, []⟩ log k ∧
      claims log < 2 ^ 63 ∧ Sighted twinRings.size log ∧ k.threads = crossed ∧
      k.state.gate.semaphore.permits = 0 ∧ asleep k = 1 ∧
      (k.state.workers.map fun w => w.queue.length.toNat).sum + asleep k ≤ twinRings.size := by
  have hnew : Pool.new twin 0 = .ok twinRings := by rfl
  have hp : (Crew.play calls (Serves 2) (cross 13 13 13 11 13 10 5) [] ⟨twinRings, []⟩).map
      (fun x => (x.2.threads, x.2.state.gate.semaphore.permits, claims x.1, sighted 2 x.1,
        asleep x.2)) = some (crossed, 0, 2, true, 1) := by rfl
  obtain ⟨log, k, hrun, hx⟩ := Crew.exists_run_of_play (fun _ _ h => h) hp
  obtain ⟨ht, hz, hc, hs, ha⟩ := by simpa only [Prod.mk.injEq] using hx
  have hclaims : claims log < 2 ^ 63 := by rw [hc]; decide
  refine ⟨log, k, hnew, hrun, hclaims, sighted_of hs, ht, hz, ha, ?_⟩
  refine queued_add_asleep_le hnew (by decide) hrun hclaims (sighted_of hs) ?_ ?_ hz (by omega)
  · simp [ht, crossed]
  · intro i pt hpt
    rcases (by simpa [ht, crossed, hold, ask] using hpt :
      (i = 0 ∧ pt = _) ∨ i = 1 ∧ pt = _) with ⟨-, rfl⟩ | ⟨-, rfl⟩
    · exact .inr trivial
    · exact .inl trivial

def Strands {Q E D : Type} [Queue Q (Item Nat Unit) E D] [Holding Q (Item Nat Unit)]
    (p : Pool Q Nat Unit) : Prop :=
  ∃ log k, Crew.Run calls (fun _ c => ∀ unwinding, c ≠ .shutdown unwinding) ⟨p, []⟩ log k ∧
    k.threads = crossed ∧ k.state.gate.semaphore.permits = 0 ∧
    k.state.workers.map (fun w => Holding.items w.queue) =
      [[], [⟨.small, .task 2 .nothing none none⟩]]

def serving : Call Nat Unit → Bool
  | .shutdown _ => false
  | _ => true

theorem strands_of_play {Q E D : Type} [Queue Q (Item Nat Unit) E D] [Holding Q (Item Nat Unit)]
    {p : Pool Q Nat Unit} (script : List (Crew.Cue (Call Nat Unit)))
    (h : (Crew.play calls (fun _ c => serving c) script [] ⟨p, []⟩).map (fun x =>
      (x.2.threads, x.2.state.gate.semaphore.permits,
        x.2.state.workers.map fun w => Holding.items w.queue)) =
      some (crossed, 0, [[], [⟨.small, .task 2 .nothing none none⟩]])) : Strands p := by
  have hserve (k : Crew (Pool Q Nat Unit) (Call Nat Unit) (Point E D Nat Unit) (Reply Unit))
      (c : Call Nat Unit) (hc : serving c) : ∀ unwinding, c ≠ .shutdown unwinding := by
    rintro u rfl
    exact absurd hc Bool.false_ne_true
  obtain ⟨log, k, hrun, hx⟩ := Crew.exists_run_of_play hserve h
  obtain ⟨ht, hz, hi⟩ := by simpa only [Prod.mk.injEq] using hx
  exact ⟨log, k, hrun, ht, hz, hi⟩

theorem stranded : Pool.new twin 0 = .ok twinRings ∧ Strands twinRings ∧
    Strands (ofQueue ({} : Fifo (Item Nat Unit)) 2 twin) :=
  ⟨by rfl, strands_of_play (cross 13 13 13 11 13 10 5) (by rfl),
    strands_of_play (cross 10 10 9 9 9 6 4) (by rfl)⟩

end WorkStealing.Pool
