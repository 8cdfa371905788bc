import WorkStealing.Proofs.Crew.Run
import WorkStealing.Proofs.Gate.Balance
import WorkStealing.Semaphore.Parking
import Mathlib.Data.List.Infix

namespace WorkStealing

namespace Semaphore

def Call.permits : Call → Nat
  | .post => 1
  | .postMany n => n
  | .wait | .tryWait => 0

def Attempt.Knows : Attempt → Prop
  | .look => True
  | .claim seen => 0 < seen.toInt

inductive Attempt.Step (s : Semaphore) : Move Semaphore Attempt Bool → Prop where
  | take {t : Semaphore} (h : 0 < s.count.toInt) (hc : t.count.toInt = s.count.toInt - 1)
      (hp : t.permits = s.permits) : Step s (.done t true)
  | retry (h : 0 < s.count.toInt) : Step s (.go s (.claim s.count))
  | fail : Step s (.done s false)

theorem Attempt.judge_step (s : Semaphore) : Step s (judge s s.count) := by
  unfold judge
  split
  · rename_i h
    exact .retry (by simpa [Int64.lt_iff_toInt_lt] using h)
  · exact .fail

theorem Attempt.step {s : Semaphore} {p : Attempt} {a : Move Semaphore Attempt Bool}
    (ha : a ∈ p.moves s) (hk : p.Knows) : Step s a := by
  cases p with
  | look => exact List.mem_singleton.1 ha ▸ judge_step s
  | claim seen =>
    simp only [moves] at ha
    split at ha
    · rename_i hs
      subst hs
      rcases List.mem_cons.1 ha with rfl | ha
      · have hlt := Int64.toInt_lt s.count
        exact .take hk (toInt_sub_one ⟨by simp only [Knows] at hk; omega, by omega⟩) rfl
      · exact List.mem_singleton.1 ha ▸ judge_step s
    · exact List.mem_singleton.1 ha ▸ judge_step s

end Semaphore

namespace Parking

open Semaphore (Call Reply Post Wait Attempt)

abbrev Caller := Thread Call Point Reply

abbrev Log := List (Crew.Entry Parking Call Point Reply)

section Rouse

variable (k : Parking) (n : Nat)

@[simp]
theorem rouse_semaphore : (k.rouse n).semaphore = k.semaphore := by
  unfold rouse
  split <;> rfl

theorem rouse_add : (k.rouse n).asleep + (k.rouse n).roused = k.asleep + k.roused := by
  unfold rouse
  split <;> simp only <;> omega

theorem rouse_of_asleep (h : 0 < (k.rouse n).asleep) :
    n = 1 ∧ 0 < k.asleep ∧ (k.rouse n).roused = k.roused + 1 := by
  unfold rouse at h ⊢
  split at h
  · simp only at h
    exact ⟨rfl, by omega, by simp only; omega⟩
  · exact absurd h (Nat.lt_irrefl 0)

end Rouse

inductive Count where
  | looking
  | parked
  | owed
  | posted
  | passed
  | taken
  deriving DecidableEq

def Count.of : Count → Caller → Nat
  | looking, .running _ (.awake (.wait .acquire)) => 1
  | parked, .running _ .parked => 1
  | owed, .running _ (.awake (.post (.release n))) => n
  | posted, .running c (.awake (.post (.release _))) | posted, .finished c .posted => c.permits
  | passed, .finished _ .passed => 1
  | taken, .finished _ (.tried true) => 1
  | _, _ => 0

def shares (t : Caller) (x : Count) : Nat := x.of t

def tally (k : Crew Parking Call Point Reply) (x : Count) : Nat := Crew.total x.of k

def Knows : Caller → Prop
  | .running c (.awake (.offer n)) | .running c (.awake (.post (.add n))) => c.permits = n
  | .running c (.awake (.wait _)) | .running c .parked => c = .wait
  | .running _ (.awake (.attempt p)) => p.Knows
  | _ => True

def adds : Point → Move Parking Point Reply → Int
  | .awake (.post p), _ => p.adds
  | .awake (.wait p), _ => p.adds
  | _, .done _ (.tried true) => -1
  | _, _ => 0

def balance (log : Log) : Int := (log.map fun e => adds e.point e.move).sum

theorem balance_cons (e : Crew.Entry Parking Call Point Reply) (log : Log) :
    balance (e :: log) = balance log + adds e.point e.move := by
  simp [balance, Int.add_comm]

def Exact (n : Nat) (log : Log) : Prop := ∀ l, l <:+ log → Fits (n + balance l)

instance (n : Nat) (log : Log) : Decidable (Exact n log) :=
  decidable_of_iff (∀ l ∈ log.tails, Fits (n + balance l))
    ⟨fun h l hl => h l ((List.mem_tails l log).2 hl),
      fun h l hl => h l ((List.mem_tails l log).1 hl)⟩

structure Balanced (n : Nat) (s : Parking) (m : Count → Nat) : Prop where
  count : s.semaphore.count.toInt =
    n + m .posted - (m .looking + m .parked + m .passed) - m .taken
  waiting : m .looking + m .parked =
    s.semaphore.permits + m .owed + (-s.semaphore.count.toInt).toNat
  parked : m .parked = s.asleep + s.roused
  alert : 0 < s.asleep → s.semaphore.permits ≤ m .looking + s.roused

inductive Step (s : Parking) : Point → Move Parking Point Reply → Prop where
  | nothing : Step s (.awake (.offer 0)) (.done s .posted)
  | overflow {n : Nat} : Step s (.awake (.offer n)) (.done s (.overflow n))
  | offer {n : Nat} : Step s (.awake (.offer n)) (.go s (.awake (.post (.add n))))
  | add {n : Nat} {t : Semaphore} (h : 0 ≤ s.semaphore.count.toInt)
      (hc : t.count.toInt = s.semaphore.count.toInt + n) (hp : t.permits = s.semaphore.permits) :
      Step s (.awake (.post (.add n))) (.done { s with semaphore := t } .posted)
  | owe {n : Nat} {t : Semaphore} (h : s.semaphore.count.toInt < 0)
      (hc : t.count.toInt = s.semaphore.count.toInt + n) (hp : t.permits = s.semaphore.permits) :
      Step s (.awake (.post (.add n))) (.go { s with semaphore := t }
        (.awake (.post (.release (min s.semaphore.count.toInt.natAbs n)))))
  | release {n : Nat} {t : Semaphore} (hc : t.count.toInt = s.semaphore.count.toInt)
      (hp : t.permits = s.semaphore.permits + n) :
      Step s (.awake (.post (.release n))) (.done { s.rouse n with semaphore := t } .posted)
  | pass {t : Semaphore} (h : 0 < s.semaphore.count.toInt)
      (hc : t.count.toInt = s.semaphore.count.toInt - 1) (hp : t.permits = s.semaphore.permits) :
      Step s (.awake (.wait .subtract)) (.done { s with semaphore := t } .passed)
  | sink {t : Semaphore} (h : s.semaphore.count.toInt ≤ 0)
      (hc : t.count.toInt = s.semaphore.count.toInt - 1) (hp : t.permits = s.semaphore.permits) :
      Step s (.awake (.wait .subtract)) (.go { s with semaphore := t } (.awake (.wait .acquire)))
  | acquire {t : Semaphore} (hc : t.count.toInt = s.semaphore.count.toInt)
      (hp : s.semaphore.permits = t.permits + 1) :
      Step s (.awake (.wait .acquire)) (.done { s with semaphore := t } .passed)
  | park (h : s.semaphore.permits = 0) :
      Step s (.awake (.wait .acquire)) (.go { s with asleep := s.asleep + 1 } .parked)
  | wake {n : Nat} (h : s.roused = n + 1) :
      Step s .parked (.go { s with roused := n } (.awake (.wait .acquire)))
  | stir (h : 0 < s.asleep) : Step s .parked (.go (s.rouse 1) .parked)
  | take {p : Attempt} {t : Semaphore} (h : 0 < s.semaphore.count.toInt)
      (hc : t.count.toInt = s.semaphore.count.toInt - 1) (hp : t.permits = s.semaphore.permits) :
      Step s (.awake (.attempt p)) (.done { s with semaphore := t } (.tried true))
  | retry {p : Attempt} (h : 0 < s.semaphore.count.toInt) :
      Step s (.awake (.attempt p)) (.go s (.awake (.attempt (.claim s.semaphore.count))))
  | fail {p : Attempt} : Step s (.awake (.attempt p)) (.done s (.tried false))

section Steps

variable {s : Parking} {a : Move Parking Point Reply}

theorem step_offer {n : Nat} (ha : a ∈ s.awaken (.offer n)) : Step s (.awake (.offer n)) a := by
  obtain ⟨b, hb, rfl⟩ := List.mem_map.1 ha
  simp only [Semaphore.Point.moves] at hb
  split at hb
  · rename_i h
    subst h
    exact List.mem_singleton.1 hb ▸ .nothing
  · split at hb
    · exact List.mem_singleton.1 hb ▸ .overflow
    · exact List.mem_singleton.1 hb ▸ .offer

theorem step_add {n : Nat} (ha : a ∈ s.awaken (.post (.add n)))
    (hf : Fits (s.semaphore.count.toInt + n)) : Step s (.awake (.post (.add n))) a := by
  obtain ⟨b, hb, rfl⟩ := List.mem_map.1 ha
  obtain ⟨d, hd, rfl⟩ := List.mem_map.1 hb
  cases Post.step hd hf with
  | add h hc hp => exact .add h hc hp
  | owe h hc hp => exact .owe h hc hp

theorem step_release {n : Nat} (ha : a ∈ (s.rouse n).awaken (.post (.release n))) :
    Step s (.awake (.post (.release n))) a := by
  obtain ⟨b, hb, rfl⟩ := List.mem_map.1 ha
  obtain ⟨d, hd, rfl⟩ := List.mem_map.1 hb
  obtain rfl := List.mem_singleton.1 hd
  exact .release (by simp) (by simp)

theorem step_wait {w : Wait} (ha : a ∈ s.awaken (.wait w))
    (hf : Fits (s.semaphore.count.toInt + w.adds)) : Step s (.awake (.wait w)) a := by
  obtain ⟨b, hb, rfl⟩ := List.mem_map.1 ha
  obtain ⟨d, hd, rfl⟩ := List.mem_map.1 hb
  cases Wait.step hd hf with
  | pass h hc hp => exact .pass h hc hp
  | sink h hc hp => exact .sink h hc hp
  | acquire hc hp => exact .acquire (congrArg _ hc) hp

theorem step_attempt {p : Attempt} (ha : a ∈ s.awaken (.attempt p)) (hk : p.Knows) :
    Step s (.awake (.attempt p)) a := by
  obtain ⟨b, hb, rfl⟩ := List.mem_map.1 ha
  obtain ⟨d, hd, rfl⟩ := List.mem_map.1 hb
  cases Attempt.step hd hk with
  | take h hc hp => exact .take h hc hp
  | retry h => exact .retry h
  | fail => exact .fail

theorem step_parked (ha : a ∈ restless.moves s .parked) : Step s .parked a := by
  rcases List.mem_append.1 ha with ha | ha
  · simp only [Point.moves] at ha
    split at ha
    · exact absurd ha List.not_mem_nil
    · rename_i n h
      exact List.mem_singleton.1 ha ▸ .wake h
  · simp only [if_true, Parking.stir] at ha
    split at ha
    · exact absurd ha List.not_mem_nil
    · rename_i h
      obtain rfl : a = .go (s.rouse 1) .parked := by simpa using ha
      exact .stir (Nat.pos_of_ne_zero h)

theorem step_of_moves {c : Call} {p : Point} (ha : a ∈ restless.moves s p)
    (hk : Knows (.running c p)) (hf : Fits (s.semaphore.count.toInt + adds p a)) : Step s p a := by
  cases p with
  | parked => exact step_parked ha
  | awake p =>
    replace ha : a ∈ Point.moves s (.awake p) := by simpa [restless] using ha
    rcases p with n | (n | n) | (_ | _) | p
    · exact step_offer ha
    · exact step_add ha hf
    · exact step_release ha
    · exact step_wait ha hf
    · simp only [Point.moves] at ha
      split at ha
      · rename_i h
        exact List.mem_singleton.1 ha ▸ .park h
      · exact step_wait ha hf
    · exact step_attempt ha hk

variable {n : Nat} {m : Count → Nat} {c : Call} {p : Point}

theorem Step.count_eq (h : Step s p a) :
    (a.land c).1.semaphore.count.toInt = s.semaphore.count.toInt + adds p a := by
  cases h <;> simp_all [Move.land, adds, Post.adds, Wait.adds] <;> rfl

theorem Step.knows (h : Step s p a) (hk : Knows (.running c p)) : Knows (a.land c).2 := by
  cases h <;> first | exact hk | trivial

theorem Step.balanced (h : Step s p a) (hk : Knows (.running c p))
    (hb : Balanced n s (shares (.running c p) + m)) :
    Balanced n (a.land c).1 (shares (a.land c).2 + m) := by
  obtain ⟨h1, h2, h3, h4⟩ := hb
  cases h with
  | @release l t hc hp =>
    have hadd := rouse_add s l
    have hrouse := rouse_of_asleep s l
    simp only [Pi.add_apply, shares, Count.of] at h1 h2 h3 h4
    refine ⟨?_, ?_, ?_, ?_⟩ <;> simp only [Move.land, Pi.add_apply, shares, Count.of] <;> omega
  | stir h =>
    have hadd := rouse_add s 1
    have hrouse := rouse_of_asleep s 1
    simp only [Pi.add_apply, shares, Count.of] at h1 h2 h3 h4
    refine ⟨?_, ?_, ?_, ?_⟩ <;>
      simp only [Move.land, Pi.add_apply, shares, Count.of, rouse_semaphore] <;> omega
  | _ =>
    simp only [Pi.add_apply, shares, Count.of, Knows] at h1 h2 h3 h4 hk
    refine ⟨?_, ?_, ?_, ?_⟩ <;> simp only [Move.land, Pi.add_apply, shares, Count.of] <;> omega

end Steps

variable {n : Nat} {log : Log} {k : Crew Parking Call Point Reply}
  {allowed : Crew Parking Call Point Reply → Call → Prop}

theorem Exact.tail {e : Crew.Entry Parking Call Point Reply} (h : Exact n (e :: log)) :
    Exact n log := fun l hl => h l (hl.trans (List.suffix_cons _ _))

theorem total_shares (k : Crew Parking Call Point Reply) : Crew.total shares k = tally k :=
  funext fun x => Crew.total_apply shares k x

theorem shares_enter (c : Call) : shares (.running c (restless.enter c)) = 0 := by
  funext x
  cases c <;> cases x <;> rfl

theorem run_balanced {s : Semaphore} (hs : s.count.toInt = n) (hp : s.permits = 0)
    (h : Crew.Run restless allowed ⟨⟨s, 0, 0⟩, []⟩ log k) (hx : Exact n log) :
    Balanced n k.state (tally k) ∧ ∀ t ∈ k.threads, Knows t := by
  rw [← total_shares]
  -- the count is kept along with the balance, as it is the balance that is known not to wrap
  have hrun : ∃ _ : Unit, (k.state.semaphore.count.toInt = n + balance log ∧
      Balanced n k.state (Crew.total shares k)) ∧ ∀ t ∈ k.threads, Knows t := by
    refine h.invariant shares
      (fun log _ s m => s.semaphore.count.toInt = n + balance log ∧ Balanced n s m)
      (fun _ => Knows) (fun log _ => Exact n log) (fun _ _ => True) (fun _ _ _ _ => id) ?_
      (fun _ _ _ => id) (fun _ _ _ _ _ _ _ _ => Exact.tail) ?_ ?_ hx
    · refine ⟨(), ⟨by simpa [balance] using hs, ⟨?_, ?_, ?_, ?_⟩⟩, by simp⟩
      all_goals simp [Crew.total, hs, hp]
    · rintro log - k c - ⟨hc, hb⟩ -
      rw [shares_enter, zero_add]
      exact ⟨(), trivial, ⟨hc, hb⟩, by cases c <;> first | rfl | trivial⟩
    · rintro log - m i c s p a ha ⟨hc, hb⟩ hk hx
      have hf := hx _ List.suffix_rfl
      rw [balance_cons, ← Int.add_assoc, ← hc] at hf
      have hs := step_of_moves ha hk hf
      refine ⟨(), trivial, ⟨?_, hs.balanced hk hb⟩, hs.knows hk⟩
      rw [hs.count_eq, hc, balance_cons, Int.add_assoc]
  obtain ⟨-, ⟨-, hb⟩, hk⟩ := hrun
  exact ⟨hb, hk⟩

theorem Point.eq_parked {s : Parking} {p : Point} (h : p.moves s = []) :
    p = .parked ∧ s.roused = 0 := by
  cases p with
  | parked =>
    refine ⟨rfl, ?_⟩
    simp only [moves] at h
    split at h
    · assumption
    · simp at h
  | awake p =>
    exfalso
    rcases p with n | (n | n) | (_ | _) | (_ | seen)
    · simp only [moves, awaken, List.map_eq_nil_iff, Semaphore.Point.moves] at h
      split at h
      · simp at h
      · split at h <;> simp at h
    · simp only [moves, awaken, List.map_eq_nil_iff, Semaphore.Point.moves] at h
      exact Post.moves_ne_nil _ _ h
    · simp only [moves, awaken, List.map_eq_nil_iff, Semaphore.Point.moves] at h
      exact Post.moves_ne_nil _ _ h
    · simp only [moves, awaken, List.map_eq_nil_iff, Semaphore.Point.moves] at h
      exact absurd (Wait.moves_eq_nil h).1 (by simp)
    · simp only [moves] at h
      split at h
      · simp at h
      · rename_i hp
        simp only [awaken, List.map_eq_nil_iff, Semaphore.Point.moves] at h
        exact hp (Wait.moves_eq_nil h).2
    · simp [moves, awaken, Semaphore.Point.moves, Attempt.moves] at h
    · simp only [moves, awaken, List.map_eq_nil_iff, Semaphore.Point.moves, Attempt.moves] at h
      split at h <;> simp at h

/-- What is so in every state of a semaphore that started with `n` permits. Waits that were passed
on at once, that have found no permit, and that have got one since, have all been taken off the
count. -/
structure Conserves (n : Nat) (k : Crew Parking Call Point Reply) : Prop where
  available : k.state.semaphore.count.toInt = n + tally k .posted -
    (tally k .looking + tally k .parked + tally k .passed) - tally k .taken
  waiting : tally k .looking + tally k .parked =
    k.state.semaphore.permits + tally k .owed + (-k.state.semaphore.count.toInt).toNat
  paid : tally k .passed + tally k .taken ≤ n + tally k .posted
  parked : tally k .parked = k.state.asleep + k.state.roused
  alert : 0 < k.state.asleep → k.state.semaphore.permits ≤ tally k .looking + k.state.roused
  quiet : Crew.Quiet calls k → (∀ c p, .running c p ∈ k.threads → c = .wait ∧ p = .parked) ∧
    k.blocked = (-k.state.semaphore.count.toInt).toNat ∧ k.state.semaphore.permits = 0

theorem blocked_eq (h : ∀ c (p : Point), .running c p ∈ k.threads → p = .parked) :
    k.blocked = tally k .parked := by
  simp only [Crew.blocked, tally, Crew.total]
  revert h
  induction k.threads with
  | nil => exact fun _ => rfl
  | cons t ts ih =>
    intro h
    rw [List.countP_cons, ih fun c p ht => h c p (List.mem_cons_of_mem t ht), List.map_cons,
      List.sum_cons, Nat.add_comm]
    cases t with
    | running c p => exact h c p List.mem_cons_self ▸ rfl
    | finished c r => rfl

theorem Balanced.conserves (hb : Balanced n k.state (tally k)) (hk : ∀ t ∈ k.threads, Knows t) :
    Conserves n k := by
  obtain ⟨h1, h2, h3, h4⟩ := hb
  refine ⟨h1, h2, by omega, h3, h4, fun hq => ?_⟩
  have hparked (c) (p : Point) (ht : .running c p ∈ k.threads) : p = .parked :=
    (Point.eq_parked (hq c p ht)).1
  have hawake (x : Count) (hx : x = .looking ∨ x = .owed) : tally k x = 0 :=
    Crew.total_eq_zero fun t ht => by
      cases t with
      | running c p => obtain rfl | rfl := hx <;> exact hparked c p ht ▸ rfl
      | finished c r => obtain rfl | rfl := hx <;> rfl
  have hlooking := hawake .looking (.inl rfl)
  have howed := hawake .owed (.inr rfl)
  have hroused : k.state.roused = 0 := by
    by_cases hex : ∃ c p, .running c p ∈ k.threads
    · obtain ⟨c, p, ht⟩ := hex
      exact (Point.eq_parked (hq c p ht)).2
    · have hnone : tally k .parked = 0 := Crew.total_eq_zero fun t ht => by
        cases t with
        | running c p => exact absurd ⟨c, p, ht⟩ hex
        | finished c r => rfl
      omega
  refine ⟨fun c p ht => ?_, ?_, ?_⟩
  · obtain rfl := hparked c p ht
    exact ⟨hk _ ht, rfl⟩
  · rw [blocked_eq hparked]
    omega
  · omega

theorem run_conserves {n : UInt64} (hn : n.toNat < 2 ^ 63)
    (h : Crew.Run restless allowed ⟨⟨.ofPermits n, 0, 0⟩, []⟩ log k) (hx : Exact n.toNat log) :
    Conserves n.toNat k := by
  have hstart : (Semaphore.ofPermits n).count.toInt = n.toNat := by
    exact BitVec.toInt_eq_toNat_of_lt (x := n.toBitVec) (by change 2 * n.toNat < 2 ^ 64; omega)
  obtain ⟨hb, hk⟩ := run_balanced hstart rfl h hx
  exact hb.conserves hk

/-- One wait takes the first permit. Another sleeps, is roused for nothing, sleeps again, and gets
the permit of a later post. A third sleeps on, and a try finds nothing. -/
def waitThrice : List (Crew.Cue Call) :=
  .start .wait :: .move 0 0 :: .start .wait :: List.replicate 5 (.move 1 0) ++
    .start (.postMany 1) :: List.replicate 3 (.move 2 0) ++ List.replicate 2 (.move 1 0) ++
    .start .wait :: List.replicate 2 (.move 3 0) ++ [.start .tryWait, .move 4 0]

abbrev thrice : List Caller :=
  [.finished .wait .passed, .finished .wait .passed, .finished (.postMany 1) .posted,
    .running .wait .parked, .finished .tryWait (.tried false)]

theorem run_conserves_waitThrice : (1 : UInt64).toNat < 2 ^ 63 ∧ ∃ log k,
    Crew.Run restless (fun _ _ => True) ⟨⟨.ofPermits 1, 0, 0⟩, []⟩ log k ∧
      Exact (1 : UInt64).toNat log ∧ Crew.Quiet calls k ∧ k.threads = thrice ∧
      Conserves (1 : UInt64).toNat k := by
  have hp : (Crew.play restless (fun _ _ => true) waitThrice []
      ⟨(⟨.ofPermits 1, 0, 0⟩ : Parking), []⟩).map (fun x =>
        (x.2.threads, x.2.isQuiet calls, decide (Exact (1 : UInt64).toNat x.1))) =
      some (thrice, true, true) := by rfl
  obtain ⟨log, k, hrun, hx⟩ := Crew.exists_run_of_play (fun _ _ _ => trivial) hp
  simp only [Prod.mk.injEq, decide_eq_true_eq] at hx
  obtain ⟨hthreads, hquiet, hexact⟩ := hx
  exact ⟨by decide, log, k, hrun, hexact, Crew.isQuiet_iff.1 hquiet, hthreads,
    run_conserves (by decide) hrun hexact⟩

end Parking

end WorkStealing
