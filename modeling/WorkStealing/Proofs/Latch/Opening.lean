import WorkStealing.Proofs.Latch.Step

namespace WorkStealing.Latch

abbrev Log := List (Crew.Entry Latch Call Point Reply)

variable {allowed : Crew Latch Call Point Reply → Call → Prop} {log : Log}
  {k : Crew Latch Call Point Reply} {l : Latch} {target : Int32}

def waits : Caller → Bool
  | .running .wait _ => true
  | _ => false

def Room (k : Crew Latch Call Point Reply) : Call → Prop
  | .wait => k.threads.countP waits + 1 < 2 ^ 32
  | .post _ => True

instance (k : Crew Latch Call Point Reply) : DecidablePred (Room k)
  | .wait => inferInstanceAs (Decidable (k.threads.countP waits + 1 < 2 ^ 32))
  | .post _ => .isTrue trivial

def posted (log : Log) : Nat := (log.map amount).sum

def Point.semaphore? : Point → Option Nat
  | .post (.wake a _) | .wait (.sleep a _) => some a
  | _ => none

def Opens (e : Crew.Entry Latch Call Point Reply) : Prop :=
  (∃ n seen, e.point = .post (.swap n seen)) ∧ 0 < e.before.count.toInt ∧
    e.move.state.count.toInt = 0 ∧ e.move.state.waiters.toNat ≠ 0

theorem inside_le (h : ∀ t ∈ k.threads, Knows l t) :
    Crew.total shares k .idle + inside (Crew.total shares k) ≤ k.threads.countP waits := by
  have hone (t : Caller) (ht : Knows l t) :
      shares t .idle + inside (shares t) ≤ if waits t then 1 else 0 := by
    rcases t with ⟨c, n | (n | ⟨n, seen⟩ | ⟨w, p⟩ | ⟨a, _ | _⟩) | (_ | _ | _ | p | ⟨a, _ | _⟩ | _)⟩ |
      ⟨c, (_ | _) | r | _ | c⟩
    all_goals first | exact Nat.zero_le _ | skip
    all_goals
      obtain rfl : c = .wait := by first | exact ht | exact ht.1
      exact Nat.le_refl 1
  rw [← Crew.total_countP]
  simp only [inside, Crew.total_apply, ← Crew.total_add]
  exact Crew.total_le fun t ht => hone t (h t ht)

structure Recorded (l : Latch) (log : Log) : Prop where
  falls : ∀ e ∈ log, 0 ≤ e.move.state.count.toInt ∧
    e.move.state.count.toInt ≤ e.before.count.toInt
  shared : ∀ e ∈ log, ∀ a, e.point.semaphore? = some a → l.shared = some a

theorem Recorded.cons {e : Crew.Entry Latch Call Point Reply} {t : Latch} (h : Recorded l log)
    (hfalls : 0 ≤ e.move.state.count.toInt ∧ e.move.state.count.toInt ≤ e.before.count.toInt)
    (hused : ∀ a, e.point.semaphore? = some a → t.shared = some a)
    (hshared : ∀ a, l.shared = some a → t.shared = some a) : Recorded t (e :: log) where
  falls := List.forall_mem_cons.2 ⟨hfalls, h.falls⟩
  shared := List.forall_mem_cons.2 ⟨hused, fun d hd a ha => hshared a (h.shared d hd a ha)⟩

theorem Knows.semaphore {c : Call} {p : Point} {a : Nat} (h : Knows l (.running c p))
    (ha : p.semaphore? = some a) : l.shared = some a := by
  rcases p with n | (_ | _ | _ | ⟨b, _⟩) | (_ | _ | _ | _ | ⟨b, _⟩ | _) <;>
    simp only [Point.semaphore?, reduceCtorEq] at ha <;> exact Option.some.inj ha ▸ h.2

theorem new_eq_ok :
    Latch.new target = .ok l ↔ 0 < target.toInt ∧ l = ⟨counts target, none, []⟩ := by
  have hpos : 0 < target ↔ 0 < target.toInt := by simp [Int32.lt_iff_toInt_lt]
  rw [Latch.new, ← hpos]
  split
  · rename_i h
    simp [h, eq_comm]
  · rename_i h
    simp [h]

theorem run_balanced (hl : Latch.new target = .ok l) (h : Crew.Run calls Room ⟨l, []⟩ log k) :
    Balanced (target.toInt.toNat - posted log) k.state (Crew.total shares k) ∧
      Recorded k.state log ∧ ∀ t ∈ k.threads, Knows k.state t := by
  suffices hrun : ∃ g : Latch, (g = k.state ∧
      Balanced (target.toInt.toNat - posted log) k.state (Crew.total shares k) ∧
      Recorded k.state log) ∧ ∀ t ∈ k.threads, Knows g t by
    obtain ⟨g, ⟨rfl, hb, hr⟩, hk⟩ := hrun
    exact ⟨hb, hr, hk⟩
  refine h.invariant shares
    (fun log g s m => g = s ∧ Balanced (target.toInt.toNat - posted log) s m ∧ Recorded s log)
    Knows (fun _ _ => True) Later (fun _ _ _ h => h.knows) ?_ (fun _ _ _ => id)
    (fun _ _ _ _ _ _ _ _ => id) ?_ ?_ trivial
  · obtain ⟨hpos, rfl⟩ := new_eq_ok.1 hl
    exact ⟨_, ⟨rfl, balanced_start (Int.toNat_of_nonneg hpos.le).symm, ⟨by simp, by simp⟩⟩,
      by simp⟩
  · rintro log g k c hc ⟨rfl, hb, hr⟩ hk
    cases c with
    | post n =>
      have h0 : Balanced (target.toInt.toNat - posted log) k.state
          ((0 : Role → Nat) + Crew.total shares k) := by rwa [zero_add]
      exact ⟨_, ⟨id, fun _ => id⟩, ⟨rfl, h0, hr⟩, rfl⟩
    | wait =>
      have hle := inside_le hk
      have hroom : k.threads.countP waits + 1 < 2 ^ 32 := hc
      exact ⟨_, ⟨id, fun _ => id⟩, ⟨rfl, hb.enter (by omega), hr⟩, rfl⟩
  · rintro log g m i c s p a ha ⟨rfl, hb, hr⟩ hk -
    have hs := (step_of_moves ha).kept hk hb (i := i)
    have hcount := hb.count_eq
    have hcount' := hs.balanced.count_eq
    have hpost : posted (⟨i, c, g, p, a⟩ :: log) = amount ⟨i, c, g, p, a⟩ + posted log := rfl
    refine ⟨_, ⟨fun h0 => ?_, hs.shared⟩, ⟨rfl, ?_, ?_⟩, hs.knows⟩
    · rw [hcount']
      omega
    · rw [hpost, Nat.add_comm, ← Nat.sub_sub]
      exact hs.balanced
    · refine hr.cons ?_ (fun b hb => ?_) hs.shared
      · rw [hcount, ← Move.fst_land, hcount']
        omega
      · exact hs.shared b (hk.semaphore hb)

/-- What is so of a latch after every run from `target`, as long as there are never too many waits
at a time. A post that overshoots counts in full. -/
structure Opening (target : Int32) (log : Log) (k : Crew Latch Call Point Reply) : Prop where
  counter : k.state.count.toInt = max 0 (target.toInt - posted log)
  falls : ∀ e ∈ log, 0 ≤ e.move.state.count.toInt ∧
    e.move.state.count.toInt ≤ e.before.count.toInt
  once : k.threads.countP (fun t => t.result? = some (.posted true)) ≤ 1
  told : ∀ i n b, k.threads[i]? = some (.finished (.post n) (.posted b)) →
    (b = true ↔ ∃ e ∈ log, e.thread = i ∧ Opens e)
  passed : ∀ x, .finished .wait x ∈ k.threads → x = .passed ∧ k.state.count.toInt = 0
  shared : ∀ e ∈ log, ∀ a, e.point.semaphore? = some a →
    k.state.shared = some a ∧ (k.state.semaphore? a).isSome
  quiet : Crew.Quiet calls k → k.state.count.toInt = 0 →
    (∀ t ∈ k.threads, t.isRunning = false) ∧ k.state.waiters.toNat = 0 ∧
      ∀ s, some s ∈ k.state.semaphores → s.count.toInt = 0 ∧ s.permits = 0

def released? : Caller → Option Bool
  | .running _ (.offer _) | .running _ (.post (.look _)) | .running _ (.post (.swap _ _)) =>
    some false
  | .running _ (.post _) => some true
  | .finished _ (.posted b) => some b
  | _ => none

theorem Step.released {n : Nat} {m : Role → Nat} {i : Nat} {c : Call} {p : Point}
    {a : Move Latch Point Reply} {b : Bool} (h : Step l p a) (hk : Knows l (.running c p))
    (hb : Balanced n l (shares (.running c p) + m)) (hr : released? (a.land c).2 = some b) :
    ∃ b', released? (.running c p) = some b' ∧
      (b = true ↔ b' = true ∨ Opens ⟨i, c, l, p, a⟩) := by
  have hcount := hb.count_eq
  -- only a swap that goes through opens the latch
  have hstill (h0 : ∀ n seen, p ≠ .post (.swap n seen)) : ¬ Opens ⟨i, c, l, p, a⟩ :=
    fun ⟨⟨n, seen, hp⟩, _⟩ => h0 n seen hp
  have hsame (h0 : a.state = l) : ¬ Opens ⟨i, c, l, p, a⟩ := fun ⟨_, hpos, hzero, _⟩ => by
    simp only [h0] at hpos hzero
    omega
  have hkeep (ho : ¬ Opens ⟨i, c, l, p, a⟩) (h0 : released? (.running c p) = some b) :
      ∃ b', released? (.running c p) = some b' ∧
        (b = true ↔ b' = true ∨ Opens ⟨i, c, l, p, a⟩) :=
    ⟨b, h0, (or_iff_left ho).symm⟩
  cases h with
  | refuse => cases hr
  | offer hpos => exact hkeep (hstill fun _ _ => by simp) hr
  | @inert q k hp =>
    refine hkeep (hsame rfl) ?_
    cases q <;> first | exact hr | cases hp
  | @see q k hp h =>
    refine hkeep (hsame rfl) ?_
    cases q <;> first | exact hr | cases hp
  | count ht h =>
    refine hkeep (fun ⟨_, _, hzero, hw⟩ => ?_) hr
    simp only [Move.state] at hzero hw
    omega
  | @release k t ht h hw =>
    obtain ⟨-, hpos, hseen⟩ := hk
    obtain rfl : true = b := Option.some.inj hr
    have hleft : t.count.toInt = (n - k.toInt.toNat : Nat) :=
      ht ▸ (hb.word.countDown hpos).remaining
    have ho : Opens ⟨i, c, l, .post (.swap k l.word), .go t (.post (.locate t.waiters .look))⟩ :=
      ⟨⟨k, l.word, rfl⟩, hseen, by simp only [Move.state]; omega, hw⟩
    exact ⟨false, rfl, ⟨fun _ => .inr ho, fun _ => rfl⟩⟩
  | @postLocate w q d h =>
    refine hkeep (hstill fun _ _ => by simp) ?_
    cases d <;> exact hr
  | @wake b s q d hs h =>
    refine hkeep (hstill fun _ _ => by simp) ?_
    cases d <;> exact hr
  | pass h => cases hr
  | enter => cases hr
  | late h => cases hr
  | join h => cases hr
  | undo => cases hr
  | @waitLocate q d h => cases d <;> cases hr
  | @sleep b s q d hs h => cases d <;> cases hr
  | leave h => cases hr
  | alarm h => cases hr

theorem told_of_run (hl : Latch.new target = .ok l) (h : Crew.Run calls Room ⟨l, []⟩ log k)
    {i : Nat} {t : Caller} (ht : k.threads[i]? = some t) :
    ∀ b, released? t = some b → (b = true ↔ ∃ e ∈ log, e.thread = i ∧ Opens e) := by
  refine h.thread (fun i log t => ∀ b, released? t = some b →
    (b = true ↔ ∃ e ∈ log, e.thread = i ∧ Opens e)) (by simp) ?_ ?_ ?_ ht
  · intro log k c hr _ b hb
    have hnone : ¬ ∃ e ∈ log, e.thread = k.threads.length ∧ Opens e := by
      rintro ⟨e, he, hi, -⟩
      exact absurd (hr.thread_lt e he) (by omega)
    cases c with
    | post n =>
      obtain rfl : false = b := Option.some.inj hb
      exact ⟨fun h => absurd h Bool.false_ne_true, fun h => absurd h hnone⟩
    | wait => cases hb
  · intro i t e log hne ih b hb
    rw [ih b hb]
    constructor
    · rintro ⟨d, hd, hi⟩
      exact ⟨d, List.mem_cons_of_mem _ hd, hi⟩
    · rintro ⟨d, hd, hi, ho⟩
      rcases List.mem_cons.1 hd with rfl | hd
      · exact absurd hi hne
      · exact ⟨d, hd, hi, ho⟩
  · intro log s before after c p a hr ha ih b hb
    obtain ⟨hbal, -, hk⟩ := run_balanced hl hr
    rw [Crew.total_split] at hbal
    obtain ⟨b', hb', hiff⟩ := (step_of_moves ha).released (i := before.length) (hk _ (by simp)) hbal hb
    rw [hiff, ih b' hb']
    constructor
    · rintro (⟨d, hd, hi⟩ | ho)
      · exact ⟨d, List.mem_cons_of_mem _ hd, hi⟩
      · exact ⟨_, List.mem_cons_self, rfl, ho⟩
    · rintro ⟨d, hd, hi, ho⟩
      rcases List.mem_cons.1 hd with rfl | hd
      · exact .inr ho
      · exact .inl ⟨d, hd, hi, ho⟩

theorem Point.eq_asleep {c : Call} {p : Point} {own : Nat → Nat} (ho : Owned l own)
    (hk : Knows l (.running c p)) (h : p.moves l = []) :
    ∃ a, p = .wait (.sleep a .acquire) ∧ l.main.permits = 0 := by
  have hlocate (q : Locate) : q.moves l ≠ [] := by
    cases q <;> simp only [Locate.moves] <;> split <;> simp
  rcases p with n | q | w
  · simp only [moves] at h
    split at h <;> simp at h
  · exfalso
    simp only [moves, List.map_eq_nil_iff] at h
    cases q with
    | look n => simp [Post.moves] at h
    | swap n seen =>
      simp only [Post.moves] at h
      split at h <;> simp at h
    | locate w q => exact hlocate q (List.map_eq_nil_iff.1 h)
    | wake a q =>
      rw [Post.moves, ho.main_eq hk.2] at h
      exact Semaphore.Post.moves_ne_nil _ _ (List.map_eq_nil_iff.1 h)
  · simp only [moves, List.map_eq_nil_iff] at h
    cases w with
    | peek =>
      simp only [Wait.moves] at h
      split at h <;> simp at h
    | register =>
      simp only [Wait.moves] at h
      split at h <;> simp at h
    | undo => simp [Wait.moves] at h
    | locate q => exact absurd (List.map_eq_nil_iff.1 h) (hlocate q)
    | sleep a q =>
      rw [Wait.moves, ho.main_eq hk.2] at h
      obtain ⟨rfl, hp⟩ := Semaphore.Wait.moves_eq_nil (List.map_eq_nil_iff.1 h)
      exact ⟨a, rfl, hp⟩
    | leave => simp [Wait.moves] at h

theorem shares_finished (c : Call) (x : Reply) {r : Role} (h : r ≠ .opening) :
    shares (.finished c x) r = 0 := by
  rcases x with (_ | _) | _ | _ | _ <;> cases r <;> first | rfl | exact absurd rfl h

theorem quiet_of_open {n : Nat} (hb : Balanced n k.state (Crew.total shares k))
    (hk : ∀ t ∈ k.threads, Knows k.state t) (hq : Crew.Quiet calls k) (hn : n = 0) :
    (∀ t ∈ k.threads, t.isRunning = false) ∧ k.state.waiters.toNat = 0 ∧
      ∀ s, some s ∈ k.state.semaphores → s.count.toInt = 0 ∧ s.permits = 0 := by
  have hasleep {c : Call} {p : Point} (ht : .running c p ∈ k.threads) :
      ∃ a, p = .wait (.sleep a .acquire) ∧ k.state.main.permits = 0 :=
    Point.eq_asleep hb.owned (hk _ ht) (hq c p ht)
  have hnone (r : Role) (hr : r ≠ .acquiring) (hr' : r ≠ .opening) : Crew.total shares k r = 0 := by
    rw [Crew.total_apply]
    refine Crew.total_eq_zero fun t ht => ?_
    cases t with
    | running c p =>
      obtain ⟨a, rfl, -⟩ := hasleep ht
      cases r <;> first | rfl | exact absurd rfl hr
    | finished c x => exact shares_finished c x hr'
  obtain ⟨hroom, honce, hshut, hopened, hwaiting⟩ := hb.counted
  have hzero := hopened hn
  rw [hnone .added (by simp) (by simp), hnone .bound (by simp) (by simp)] at hzero
  rw [hnone .owed (by simp) (by simp)] at hwaiting
  -- whoever is asleep is owed a permit that is there, but sleeps because there is none
  have hacquiring : Crew.total shares k .acquiring = 0 ∧ k.state.main.permits = 0 := by
    by_cases hex : ∃ c p, .running c p ∈ k.threads
    · obtain ⟨c, p, ht⟩ := hex
      obtain ⟨-, -, hp⟩ := hasleep ht
      omega
    · have h0 : Crew.total shares k .acquiring = 0 := by
        rw [Crew.total_apply]
        refine Crew.total_eq_zero fun t ht => ?_
        cases t with
        | running c p => exact absurd ⟨c, p, ht⟩ hex
        | finished c x => exact shares_finished c x (by simp)
      omega
  refine ⟨fun t ht => ?_, ?_, fun s hs => ?_⟩
  · cases t with
    | running c p =>
      obtain ⟨a, rfl, -⟩ := hasleep ht
      have hle := Crew.le_total (f := fun t => shares t .acquiring) ht
      rw [← Crew.total_apply, hacquiring.1] at hle
      exact absurd hle (by simp [shares, Wait.roles])
    | finished c x => rfl
  · have hin := hb.word.registered
    rw [inside, hnone .undoing (by simp) (by simp), hnone .bound (by simp) (by simp), hacquiring.1,
      hnone .leaving (by simp) (by simp)] at hin
    exact hin
  · obtain ⟨a, ha⟩ := List.mem_iff_getElem?.1 hs
    have hlive : k.state.semaphore? a = some s := by rw [semaphore?, ha]; rfl
    have hown := hb.owned.owners a
    rw [hnone (.own a) (by simp) (by simp), hlive] at hown
    have hshared : k.state.shared = some a := by
      by_contra h0
      rw [if_neg h0] at hown
      exact absurd hown (by simp)
    obtain rfl := Option.some.inj (hlive.symm.trans (hb.owned.main_eq hshared))
    exact ⟨by omega, hacquiring.2⟩

theorem run_opens (hl : Latch.new target = .ok l) (h : Crew.Run calls Room ⟨l, []⟩ log k) :
    Opening target log k := by
  obtain ⟨hb, hr, hk⟩ := run_balanced hl h
  have hcount := hb.count_eq
  refine ⟨?_, hr.falls, ?_, fun i n b ht => told_of_run hl h ht b rfl, fun x hx => ?_,
    fun e he a ha => ?_, fun hq h0 => ?_⟩
  · rw [hcount]
    omega
  · rw [← Crew.total_countP]
    refine le_trans (Crew.total_mono (g := fun t => shares t .opening) (fun t => ?_) k) ?_
    · rcases t with ⟨c, p⟩ | ⟨c, (_ | _) | r | _ | c⟩ <;> simp [Thread.result?, shares]
    · rw [← Crew.total_apply]
      exact hb.counted.once
  · have := hk _ hx
    cases x with
    | passed => exact ⟨rfl, this.2⟩
    | alarmed => exact absurd this id
    | posted b => obtain ⟨n, h0⟩ := this; cases h0
    | refused r => obtain ⟨n, h0⟩ := this; cases h0
  · have ha' := hr.shared e he a ha
    exact ⟨ha', hb.owned.isSome ha'⟩
  · exact quiet_of_open hb hk hq (by omega)

/-- A waiter and a post that overshoots each make a semaphore. The waiter installs its own and falls
asleep on it, the post frees the other one and wakes it up. A late waiter passes at once. -/
def race : List (Crew.Cue Call) :=
  .start .wait :: List.replicate 3 (.move 0 0) ++ .start (.post 5) :: List.replicate 4 (.move 1 0) ++
    [.move 0 0, .move 1 0, .move 0 0, .move 1 0, .move 1 0, .start .wait, .move 2 0] ++
    List.replicate 2 (.move 0 0)

abbrev raced : List Caller :=
  [.finished .wait .passed, .finished (.post 5) (.posted true), .finished .wait .passed]

theorem run_opens_race : ∃ l, Latch.new 2 = .ok l ∧ ∃ log k, Crew.Run calls Room ⟨l, []⟩ log k ∧
    Crew.Quiet calls k ∧ k.threads = raced ∧ k.state.count = 0 ∧ Opening 2 log k := by
  refine ⟨⟨counts 2, none, []⟩, rfl, ?_⟩
  have hok (k : Crew Latch Call Point Reply) (c : Call)
      (h : decide (k.threads.countP waits + 1 < 2 ^ 32)) : Room k c := by
    cases c with
    | wait =>
      rw [decide_eq_true_eq] at h
      exact h
    | post n => trivial
  have hp : (Crew.play calls (fun k _ => decide (k.threads.countP waits + 1 < 2 ^ 32)) race []
      ⟨⟨counts 2, none, []⟩, []⟩).map (fun x => (x.2.threads, x.2.isQuiet calls, x.2.state.count)) =
      some (raced, true, 0) := by rfl
  obtain ⟨log, k, hrun, hx⟩ := Crew.exists_run_of_play hok hp
  simp only [Prod.mk.injEq] at hx
  obtain ⟨hthreads, hquiet, hcount⟩ := hx
  exact ⟨log, k, hrun, Crew.isQuiet_iff.1 hquiet, hthreads, hcount, run_opens rfl hrun⟩

end WorkStealing.Latch
