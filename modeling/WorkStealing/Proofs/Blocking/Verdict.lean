import WorkStealing.Proofs.Blocking.Drain

namespace WorkStealing.Blocking

open Queue (Staged)

variable {Q α E D : Type} [Queue Q α E D] {spins : Nat}
  {allowed : Crew (Blocking Q) (Call α) (Point α E D) (Reply α) → Call α → Prop}
  {log recent : Log Q α} {j k : Crew (Blocking Q) (Call α) (Point α E D) (Reply α)}

def Judged (log : Log Q α) : Caller α E D → Prop
  | .running .tryDequeue (.tryDequeue .verdict) => ∃ e ∈ log, Exhausted e
  | .running .tryDequeue (.tryDequeue (.pop _)) => True
  | .running .tryDequeue _ => False
  | .finished .tryDequeue (.popped (.error r)) => r = .closed ∧ ∃ e ∈ log, Exhausted e
  | _ => True

theorem Judged.cons {t : Caller α E D} (e : Crew.Entry (Blocking Q) (Call α) (Point α E D) (Reply α))
    (h : Judged log t) : Judged (e :: log) t := by
  have hcons (hx : ∃ e ∈ log, Exhausted e) : ∃ r ∈ e :: log, Exhausted r :=
    hx.imp fun _ => .imp_left (List.mem_cons_of_mem e)
  rcases t with ⟨_ | _ | _ | _, _ | _ | (_ | _) | _⟩ | ⟨_ | _ | _ | _, _ | (_ | _) | _⟩ <;>
    first
    | exact hcons h
    | exact h.imp_right hcons
    | exact h

theorem judged_land {i : Nat} {c : Call α} {p : Point α E D} {q : Blocking Q}
    {a : Move (Blocking Q) (Point α E D) (Reply α)} (ha : a ∈ p.moves spins q)
    (hc : q.closed = true) (hj : Judged log (.running c p)) :
    Judged (⟨i, c, q, p, a⟩ :: log) (a.land c).2 := by
  cases c with
  | tryDequeue =>
    rcases p with p | p | p | p <;> try exact hj.elim
    obtain ⟨b, hb, rfl⟩ := List.mem_map.1 ha
    cases TryDequeue.step hb with
    | miss => exact ⟨_, List.mem_cons_self, hc, .inr (.inr ⟨_, _, rfl, rfl⟩)⟩
    | up => exact ⟨rfl, (Judged.cons _ hj : Judged _ (.running .tryDequeue (.tryDequeue .verdict)))⟩
    | down hd => exact absurd hc (by simp [hd])
    | look | find => trivial
  | enqueue v => cases a <;> trivial
  | dequeue => cases a <;> trivial
  | close => cases a <;> trivial

theorem judged_of_run (hc : j.state.closed = true)
    (h : Crew.Run (calls spins) allowed j recent k) {i : Nat} {t : Caller α E D}
    (hi : j.threads.length ≤ i) (ht : k.threads[i]? = some t) : Judged recent t := by
  refine h.thread_to (fun i log t => j.threads.length ≤ i → Judged log t) ?_ ?_ ?_ ?_ ht hi
  · intro i t ht hi
    rw [List.getElem?_eq_none hi] at ht
    exact absurd ht (by simp)
  · intro log l c _ _ _
    cases c <;> trivial
  · exact fun i t e log _ ih hi => (ih hi).cons e
  · intro log rest s before after c p a hr ha _ _ ih hi
    exact judged_land ha (closed_of_run hc hr) (ih hi)

/-- Where somebody has been told so by a try that started once the flag was up, the queue is
closed and all that went in is accounted for. -/
def Truthful [Staged Q α E D] (spins : Nat) (b : Q) : Prop :=
  ∀ older recent j k, Crew.Run (calls spins) Dutiful ⟨⟨b, {}, false⟩, []⟩ older j →
    Crew.Run (calls spins) Dutiful j recent k → Exact (recent ++ older) →
    (Staged.Wraps Q → offers k < 2 ^ 63) → j.state.closed = true → ∀ i r, j.threads.length ≤ i →
    k.threads[i]? = some (.finished .tryDequeue (.popped (.error r))) →
    r = .closed ∧ (accepted k).Perm (returned k ++ inHand k)

theorem truthful_of_tracks [Staged Q α E D] {n : Nat} {b : Q}
    (hb : Staged.Tracks n b (Ghost.start : Ghost α) 0) : Truthful spins b := by
  intro older recent j k hj hrest hx hfew hc i r hi ht
  obtain ⟨rfl, e, he, hexh⟩ := judged_of_run hc hrest hi ht
  exact ⟨rfl, run_accounted hb (hj.append hrest) hx hfew
    (List.mem_append_left _ he) hexh⟩

theorem verdict_truthful {spins : Nat} :
    (∀ capacity slotSize (r : Ring α), Ring.new capacity slotSize = .ok r → Truthful spins r) ∧
    Truthful spins ({} : Linked α) ∧
    ∀ {Q E D : Type} [Queue Q α E D] [Holding Q α] [Queue.Atomic Q] (b : Q),
      Holding.items b = [] → Truthful spins b :=
  ⟨fun capacity _ _ hr => truthful_of_tracks (n := capacity.toNat) (Ring.tracks_start hr),
    truthful_of_tracks (n := 0) Linked.tracks_start,
    fun b hb => truthful_of_tracks (n := 0) (by
      have h := Queue.Atomic.tracks_of b
      rw [hb, Ghost.of_nil] at h
      exact h)⟩

abbrev toldByTry : Caller α E D := .finished .tryDequeue (.popped (.error .closed))

def ToldLate [Staged Q α E D] (b : Q) (v : α) : Prop :=
  ∃ older j recent k, Crew.Run (calls 0) Dutiful ⟨⟨b, {}, false⟩, []⟩ older j ∧
    Crew.Run (calls 0) Dutiful j recent k ∧ Exact (recent ++ older) ∧ j.state.closed = true ∧
    j.threads.length ≤ 3 ∧ k.threads[3]? = some toldByTry ∧ accepted k = [v] ∧
    (accepted k).Perm (returned k ++ inHand k)

theorem toldLate_of_play [Staged Q α E D] {b : Q} {v : α} (ht : Truthful 0 b)
    (before after : List (Crew.Cue (Call α)))
    (h : ((Crew.play (calls 0) dutiful before [] ⟨⟨b, {}, false⟩, []⟩).bind fun y =>
      (Crew.play (calls 0) dutiful after [] y.2).map fun x =>
        (x.2.threads[3]?, accepted x.2, decide (Exact (x.1 ++ y.1)) &&
          decide (offers x.2 < 2 ^ 63) && y.2.state.closed && decide (y.2.threads.length ≤ 3))) =
      some (some toldByTry, [v], true)) : ToldLate b v := by
  obtain ⟨older, j, recent, k, hj, hk, hx⟩ := Crew.exists_runs_of_play dutiful_of h
  simp only [Prod.mk.injEq, Bool.and_eq_true, decide_eq_true_eq] at hx
  obtain ⟨htold, hins, ⟨⟨hexact, hfew⟩, hclosed⟩, hlen⟩ := hx
  exact ⟨older, j, recent, k, hj, hk, hexact, hclosed, hlen, htold, hins,
    (ht older recent j k hj hk hexact (fun _ => hfew) hclosed 3 _ hlen htold).2⟩

def fill (push : Nat) : List (Crew.Cue (Call Nat)) :=
  .start (.enqueue 7) :: steps 0 push ++ .start .close :: steps 1 2

def tryTwice (pop miss : Nat) : List (Crew.Cue (Call Nat)) :=
  .start .tryDequeue :: steps 2 pop ++ .start .tryDequeue :: steps 3 miss

theorem verdict_truthful_twice :
    ToldLate Ring.pair 7 ∧ ToldLate ({} : Linked Nat) 7 ∧ ToldLate ({} : Fifo Nat) 7 :=
  ⟨toldLate_of_play (verdict_truthful.1 2 none Ring.pair (by rfl)) (fill 7) (tryTwice 5 3) (by rfl),
    toldLate_of_play verdict_truthful.2.1 (fill 4) (tryTwice 2 2) (by rfl),
    toldLate_of_play (verdict_truthful.2.2 ({} : Fifo Nat) rfl) (fill 3) (tryTwice 1 2) (by rfl)⟩

/-- A try finds nothing; a value is pushed and the queue closed, each from start to end; the try
goes on and sees the flag up. -/
def lookEarly (miss push : Nat) : List (Crew.Cue (Call Nat)) :=
  .start .tryDequeue :: steps 0 miss ++ .start (.enqueue 7) :: steps 1 push ++
    .start .close :: steps 2 2 ++ steps 0 1

def Misled [Staged Q α E D] (b : Q) (v : α) : Prop :=
  ∃ log k, Crew.Run (calls 0) Dutiful ⟨⟨b, {}, false⟩, []⟩ log k ∧ Exact log ∧
    toldByTry ∈ k.threads ∧ accepted k = [v] ∧ returned k = [] ∧ inHand k = []

theorem misled_of_play [Staged Q α E D] {b : Q} {v : α} (script : List (Crew.Cue (Call α)))
    (h : (Crew.play (calls 0) dutiful script [] ⟨⟨b, {}, false⟩, []⟩).map (fun x =>
      (x.2.threads[0]?, accepted x.2, returned x.2, inHand x.2, decide (Exact x.1))) =
      some (some toldByTry, [v], [], [], true)) : Misled b v := by
  obtain ⟨log, k, hrun, hx⟩ := Crew.exists_run_of_play dutiful_of h
  simp only [Prod.mk.injEq, decide_eq_true_eq] at hx
  obtain ⟨htold, hins, houts, hhand, hexact⟩ := hx
  exact ⟨log, k, hrun, hexact, List.mem_of_getElem? htold, hins, houts, hhand⟩

theorem told_too_soon : Ring.new 2 none = .ok Ring.pair ∧ Misled Ring.pair 7 ∧
    Misled ({} : Linked Nat) 7 ∧ Misled ({} : Fifo Nat) 7 :=
  ⟨by rfl, misled_of_play (lookEarly 2 7) (by rfl), misled_of_play (lookEarly 1 4) (by rfl),
    misled_of_play (lookEarly 1 3) (by rfl)⟩

end WorkStealing.Blocking
