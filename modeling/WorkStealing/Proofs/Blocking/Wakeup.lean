import WorkStealing.Proofs.Blocking.Kept
import WorkStealing.Proofs.Queue.Atomic

namespace WorkStealing.Blocking

open Queue (Part Staged Stored)
open Role

variable {Q α E D : Type}

section

variable [Queue Q α E D] [Staged Q α E D] {lucid : Prop} {n : Nat} {f : α → Bool} {g₀ g : Ghost α}
  {q : Blocking Q} {mp : Part → Nat} {spins : Nat}

theorem Point.eq_of_moves_eq_nil {c : Call α} {p : Point α E D}
    (hs : Stored n f g₀ q.base g (part Q f (.running c p) + mp)) (hk : Knows Q n g (.running c p))
    (h : p.moves spins q = []) : c = .dequeue ∧ p = .dequeue (.sleep (.wait .acquire)) ∧
      q.gate.semaphore.permits = 0 := by
  have hpop {P R : Type} {d : D} {stay : D → P} {f' : Blocking Q → Option α → Move (Blocking Q) P R}
      {mp : Part → Nat} (hs : Stored n f g₀ q.base g (Queue.popPart Q d + mp))
      (hk : Staged.Popping Q g d) : tryBase q d stay f' ≠ [] := fun h =>
    Staged.pop_moves_ne_nil hs.tracks hk (List.map_eq_nil_iff.1 h)
  have hnotify {P R : Type} {m : Gate.Notify} {stay : Gate.Notify → P}
      {f' : Blocking Q → Nat → Move (Blocking Q) P R} : Gate.notify q m stay f' ≠ [] := by
    simpa [Gate.notify] using Gate.Notify.moves_ne_nil (Gated.gate q) m
  rcases c with v | _ | _ | _ <;> rcases p with p | p | p | p <;> try exact hk.elim
  all_goals replace h := List.map_eq_nil_iff.1 h
  · rcases p with w | e | m <;> simp only [Enqueue.moves] at h
    · split at h <;> simp at h
    · exact (Staged.push_moves_ne_nil hs.tracks hk (List.map_eq_nil_iff.1 h)).elim
    · exact (hnotify h).elim
  · rcases p with ⟨k, d⟩ | _ | d | p <;> simp only [Dequeue.moves] at h
    · exact (hpop hs hk h).elim
    · split at h <;> simp at h
    · exact (hpop hs hk h).elim
    · replace h := List.map_eq_nil_iff.1 h
      rcases p with _ | k | r | w | _
      · simp [Gate.Sleep.moves] at h
      · replace h : Recheck.moves q k = [] := List.map_eq_nil_iff.1 h
        rcases k with d | _ | d <;> simp only [Recheck.moves] at h
        · exact (hpop hs hk h).elim
        · split at h <;> simp at h
        · exact (hpop hs hk h).elim
      · simp [Gate.Sleep.moves] at h
      · obtain ⟨rfl, hz⟩ := Semaphore.Wait.moves_eq_nil (List.map_eq_nil_iff.1 h)
        exact ⟨rfl, rfl, hz⟩
      · simp [Gate.Sleep.moves] at h
  · rcases p with d | _ <;> simp only [TryDequeue.moves] at h
    · exact (hpop hs hk h).elim
    · simp at h
  · rcases p with _ | m <;> simp only [Close.moves] at h
    · simp at h
    · exact (hnotify h).elim

section Quiet

variable {turns : Prop} {log : Log Q α} {k : Crew (Blocking Q) (Call α) (Point α E D) (Reply α)}

theorem Kept.stuck (hk : Kept lucid n f g₀ turns log g k.state k.threads)
    (hknows : ∀ t ∈ k.threads, Knows Q n g t) (hq : Crew.Quiet (calls spins) k) {c : Call α}
    {p : Point α E D} (ht : .running c p ∈ k.threads) : c = .dequeue ∧
      p = .dequeue (.sleep (.wait .acquire)) ∧ k.state.gate.semaphore.permits = 0 := by
  obtain ⟨m, hm⟩ := Multiset.exists_cons_of_mem (Multiset.mem_coe.2 ht)
  have hs := hk.balanced.stored
  rw [hm, Multiset.map_cons, Multiset.sum_cons] at hs
  exact Point.eq_of_moves_eq_nil hs (hknows _ ht) (hq c p ht)

theorem Kept.quiet (hk : Kept lucid n f g₀ turns log g k.state k.threads)
    (hknows : ∀ t ∈ k.threads, Knows Q n g t) (hq : Crew.Quiet (calls spins) k) {c : Call α}
    {p : Point α E D} (ht : .running c p ∈ k.threads) :
    (lucid → g.ready = 0) ∧ k.state.closed = false := by
  obtain ⟨rfl, rfl, hp⟩ := hk.stuck hknows hq ht
  have hzero (r : Role) (hr : r ≠ acquiring) :
      ((k.threads : Multiset (Caller α E D)).map (role Q)).sum r = 0 := by
    refine sum_eq_zero fun t hm => ?_
    rcases t with ⟨c, p⟩ | ⟨c, y⟩
    · obtain ⟨-, rfl, -⟩ := hk.stuck hknows hq (Multiset.mem_coe.1 hm)
      exact Pi.single_eq_of_ne hr 1
    · rfl
  have hpos : 0 < ((k.threads : Multiset (Caller α E D)).map (role Q)).sum acquiring := by
    obtain ⟨m, hm⟩ := Multiset.exists_cons_of_mem (Multiset.mem_coe.2 ht)
    rw [hm, Multiset.map_cons, Multiset.sum_cons, Pi.add_apply]
    exact Nat.lt_of_lt_of_le Nat.one_pos (Nat.le_add_right _ _)
  obtain ⟨h1, h2, h3, h4⟩ := hk.balanced.awake
  simp only [hzero _ (by decide : doubting ≠ acquiring), hzero _ (by decide : committed ≠ acquiring),
    hzero _ (by decide : owed ≠ acquiring), hzero _ (by decide : looking ≠ acquiring),
    hzero _ (by decide : hungry ≠ acquiring), hzero _ (by decide : rechecking ≠ acquiring),
    hzero _ (by decide : waking ≠ acquiring), hzero _ (by decide : adding ≠ acquiring),
    hzero _ (by decide : closing ≠ acquiring), hp] at h2 h3 h4
  have hopen : k.state.closed = false := by
    by_contra hc
    have := h4 (by simpa using hc) trivial
    omega
  refine ⟨fun hl => ?_, hopen⟩
  have := h3 hl hopen
  omega

end Quiet

end

theorem quiet_of_run [Queue Q α E D] [Holding Q α] [Queue.Atomic Q] {spins : Nat} {b : Q}
    {log : Log Q α} {k : Crew (Blocking Q) (Call α) (Point α E D) (Reply α)}
    (h : Crew.Run (calls spins) (fun _ _ => True) ⟨⟨b, {}, false⟩, []⟩ log k) (hx : Exact log)
    (hq : Crew.Quiet (calls spins) k) : ∀ c p, .running c p ∈ k.threads →
      c = .dequeue ∧ p = .dequeue (.sleep (.wait .acquire)) ∧ k.state.gate.semaphore.permits = 0 ∧
        Holding.items k.state.base = [] ∧ k.state.closed = false := by
  have hclear : ∀ n (b : Q) g m, Staged.Tracks n b g m → g.Clear :=
    fun _ _ _ _ ht => ht.still.clear ht.orderly
  obtain ⟨g, hk, hknows⟩ := run_kept True False (fun _ => false) (n := 0)
    (Queue.Atomic.tracks_of b) False.elim h hx (fun _ => .inl hclear) False.elim
  intro c p ht
  obtain ⟨hc, hp, hz⟩ := hk.stuck hknows hq ht
  obtain ⟨hready, hopen⟩ := hk.quiet hknows hq ht
  refine ⟨hc, hp, hz, ?_, hopen⟩
  have hready := hready trivial
  rw [← Staged.ready_eq hk.balanced.stored.tracks] at hready
  exact List.length_eq_zero_iff.1 hready

def leftover : List (Crew.Cue (Call Nat)) :=
  .start (.enqueue 7) :: List.replicate 3 (.move 0 0) ++
    .start .dequeue :: List.replicate 4 (.move 1 0) ++
    .start .dequeue :: List.replicate 5 (.move 2 0)

theorem quiet_of_run_leftover : ∃ (log : Log (Fifo Nat) Nat) (k : _),
    Crew.Run (calls 0) (fun _ _ => True) ⟨⟨{}, {}, false⟩, []⟩ log k ∧
      Exact log ∧ Crew.Quiet (calls 0) k ∧
      k.threads = [.finished (.enqueue 7) (.pushed (.ok ())), .finished .dequeue (.popped (.ok 7)),
        .running .dequeue (.dequeue (.sleep (.wait .acquire)))] ∧
      k.state.gate.semaphore.permits = 0 ∧ Holding.items k.state.base = [] ∧
      k.state.closed = false := by
  have hp : (Crew.play (calls 0) (fun _ _ => true) leftover []
      ⟨(⟨{}, {}, false⟩ : Blocking (Fifo Nat)), []⟩).map
      (fun x => (x.2.threads, x.2.isQuiet (calls 0), x.1.tails.all fun l => decide (Fits (balance l)),
        x.1.all fun e => decide (e.before.gate.sleepers < UInt64.size))) =
      some ([.finished (.enqueue 7) (.pushed (.ok ())), .finished .dequeue (.popped (.ok 7)),
        .running .dequeue (.dequeue (.sleep (.wait .acquire)))], true, true, true) := by rfl
  obtain ⟨⟨log, k⟩, hp, he⟩ := Option.map_eq_some_iff.1 hp
  obtain ⟨ht, hq, hf, hs⟩ := by simpa only [Prod.mk.injEq] using he
  have hrun := Crew.run_play (fun _ _ _ => trivial) (.refl (m := calls 0)) hp
  have hx : Exact log :=
    ⟨fun l hl => of_decide_eq_true (List.all_eq_true.1 hf l ((List.mem_tails _ _).2 hl)),
      fun e h => of_decide_eq_true (List.all_eq_true.1 hs e h)⟩
  have hq' := Crew.isQuiet_iff.1 hq
  obtain ⟨-, -, h1, h2, h3⟩ := quiet_of_run hrun hx hq' .dequeue
    (.dequeue (.sleep (.wait .acquire))) (by rw [ht]; simp)
  exact ⟨log, k, hrun, hx, hq', ht, h1, h2, h3⟩

end WorkStealing.Blocking
