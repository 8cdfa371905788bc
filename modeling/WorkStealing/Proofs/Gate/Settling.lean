import WorkStealing.Proofs.Gate.Account
import Mathlib.Data.List.Infix

namespace WorkStealing.Gate

variable {α : Type}

/-- Those who sleep on a gate and the permits that nobody has taken. -/
@[ext]
structure Rest where
  asleep : Nat
  banked : Nat
  either : asleep = 0 ∨ banked = 0

/-- What is asked of a gate: a number of threads that go to sleep, one whose recheck finds a value,
and the ways to wake them. -/
inductive Errand (α : Type) where
  | sleep (threads : Nat)
  | recheck (v : α)
  | notifyOne
  | notifyUpTo (limit : Nat)
  | notifyAll
  | post
  deriving DecidableEq, Repr

def Errand.calls : Errand α → List (Call α)
  | .sleep n => List.replicate n (.sleep .miss)
  | .recheck v => [.sleep (.hit v)]
  | .notifyOne => [.notify .one]
  | .notifyUpTo limit => [.notify (.look limit)]
  | .notifyAll => [.notify .all]
  | .post => [.notify .always]

def Errand.begin (op : Errand α) (k : Callers α) : Callers α :=
  op.calls.foldl (Crew.start (Gate.calls α)) k

namespace Rest

def start : Rest := ⟨0, 0, .inl rfl⟩

def balance (r : Rest) : Int := r.banked - r.asleep

def wakes (r : Rest) : Errand α → Nat
  | .sleep n => min r.banked n
  | .recheck _ => 0
  | .notifyOne | .post => if 0 < r.asleep then 1 else 0
  | .notifyUpTo limit => min r.asleep limit
  | .notifyAll => r.asleep

def after (r : Rest) : Errand α → Rest
  | .sleep n => ⟨r.asleep + (n - r.banked), r.banked - n, by have := r.either; omega⟩
  | .recheck _ => r
  | .notifyOne => ⟨r.asleep - 1, r.banked, by have := r.either; omega⟩
  | .notifyUpTo limit => ⟨r.asleep - limit, r.banked, by have := r.either; omega⟩
  | .notifyAll => ⟨0, r.banked, .inl rfl⟩
  | .post => ⟨r.asleep - 1, if 0 < r.asleep then r.banked else r.banked + 1, by
      have := r.either
      split <;> omega⟩

def answer (r : Rest) : Errand α → Option (Reply α)
  | .sleep _ => none
  | .recheck v => some (.found v (r.asleep + 1))
  | .notifyOne => some (.posted (if 0 < r.asleep then 1 else 0))
  | .notifyUpTo limit => some (.posted (min r.asleep limit))
  | .notifyAll => some (.posted r.asleep)
  | .post => some (.posted 1)

def Small (r : Rest) : Prop := r.asleep < 2 ^ 63 ∧ r.banked < 2 ^ 63

instance (r : Rest) : Decidable r.Small := inferInstanceAs (Decidable (_ ∧ _))

theorem eq_of_balance {r r' : Rest} (h : r.balance = r'.balance) : r = r' := by
  have h1 := r.either
  have h2 := r'.either
  simp only [balance] at h
  ext <;> omega

end Rest

def Call.sleeps : Call α → Bool
  | .sleep .miss => true
  | _ => false

def isWoken : Caller α → Bool
  | .finished (.sleep .miss) .woken => true
  | _ => false

def started (k : Callers α) : Nat := k.threads.countP fun t => t.call.sleeps

def returned (k : Callers α) : Nat := k.threads.countP isWoken

structure AtRest (r : Rest) (k : Callers α) : Prop where
  state : k.state = ⟨r.asleep, ⟨.ofInt r.balance, 0⟩⟩
  blocked : k.blocked = r.asleep
  sleeping : ∀ c p, .running c p ∈ k.threads →
    c = .sleep .miss ∧ p = .sleep .miss (.wait .acquire)
  woken : ∀ a, .finished (.sleep .miss) a ∈ k.threads → a = .woken
  accounted : returned k + r.asleep = started k

structure Serves (r : Rest) (op : Errand α) (j k : Callers α) : Prop where
  rest : AtRest (r.after op) k
  woken : returned k = returned j + r.wakes op
  answer : ∀ a, r.answer op = some a → ∃ c, k.threads[j.threads.length]? = some (.finished c a)

theorem Rest.wakes_add (r : Rest) (op : Errand α) : (r.after op).asleep + r.wakes op =
    r.asleep + op.calls.countP Call.sleeps := by
  have := r.either
  cases op with
  | sleep n =>
    simp only [after, wakes, Errand.calls, List.countP_replicate, Call.sleeps, if_true]
    omega
  | notifyOne | post =>
    simp only [after, wakes, Errand.calls, List.countP_singleton, Call.sleeps]
    split <;> simp only [Bool.false_eq_true, if_false] <;> omega
  | _ => simp [after, wakes, Errand.calls, Call.sleeps]

section Resting

variable {r : Rest} {k : Callers α}

theorem AtRest.mem_cases (h : AtRest r k) {t : Caller α} (ht : t ∈ k.threads) :
    (∃ c a, t = .finished c a) ∨ t = .running (.sleep .miss) (.sleep .miss (.wait .acquire)) := by
  rcases t with ⟨c, p⟩ | ⟨c, a⟩
  · obtain ⟨rfl, rfl⟩ := h.sleeping c p ht
    exact .inr rfl
  · exact .inl ⟨c, a, rfl⟩

theorem AtRest.knows (h : AtRest r k) : ∀ t ∈ k.threads, Knows t := by
  intro t ht
  rcases h.mem_cases ht with ⟨c, a, rfl⟩ | rfl
  · rcases c with n | v | _ <;> first | trivial | exact h.woken a ht
  · simp [Knows]

theorem AtRest.stuck (h : AtRest r k) {g : Gate} (hg : g.semaphore.permits = 0) :
    ∀ c p, .running c p ∈ k.threads → (calls α).moves g p = [] := by
  intro c p ht
  obtain ⟨-, rfl⟩ := h.sleeping c p ht
  exact moves_acquire .miss hg

theorem tally_eq (h : ∀ c p, .running c p ∈ k.threads → p = .sleep .miss (.wait .acquire))
    (x : Count) : tally k x = if x = .declared ∨ x = .acquiring then k.blocked else 0 := by
  have hof : ∀ t ∈ k.threads, x.of t =
      if x = .declared ∨ x = .acquiring then (if t.isRunning then 1 else 0) else 0 := by
    intro t ht
    cases t with
    | running c p =>
      obtain rfl := h c p ht
      cases x <;> rfl
    | finished c a => cases x <;> rfl
  split
  · rename_i hx
    rw [Crew.blocked, ← Crew.total_countP]
    exact congrArg List.sum (List.map_congr_left fun t ht => by rw [hof t ht, if_pos hx])
  · rename_i hx
    exact Crew.total_eq_zero fun t ht => by rw [hof t ht, if_neg hx]

theorem countP_sleeps (hsleeping : ∀ c p, .running c p ∈ k.threads → c = .sleep .miss)
    (hwoken : ∀ a, .finished (.sleep .miss) a ∈ k.threads → a = .woken) :
    returned k + k.blocked = started k := by
  have hone : ∀ t ∈ k.threads, (if isWoken t then 1 else 0) + (if t.isRunning then 1 else 0) =
      if t.call.sleeps then 1 else 0 := by
    rintro (⟨c, p⟩ | ⟨n | v | _, a⟩) ht
    · obtain rfl := hsleeping c p ht
      rfl
    · rfl
    · rfl
    · obtain rfl := hwoken a ht
      rfl
  simp only [returned, Crew.blocked, started, ← Crew.total_countP, ← Crew.total_add]
  exact congrArg List.sum (List.map_congr_left hone)

theorem atRest_of_balanced (hb : Balanced r.balance k.state (tally k))
    (hk : ∀ t ∈ k.threads, Knows t) (hq : Crew.Quiet (calls α) k) : AtRest r k := by
  have hsleeping : ∀ c p, .running c p ∈ k.threads →
      c = .sleep .miss ∧ p = .sleep .miss (.wait .acquire) := by
    intro c p ht
    obtain ⟨⟨r, rfl⟩, -⟩ := Point.eq_acquire (hq c p ht)
    obtain ⟨rfl, rfl, -⟩ := (hk _ ht).cases_sleep
    exact ⟨rfl, rfl⟩
  have hwoken : ∀ a, .finished (.sleep .miss) a ∈ k.threads → a = .woken := fun a ht => hk _ ht
  -- a thread that is stuck has found no permit; without one, the count accounts for the permits
  have hpermits : 0 < k.blocked → k.state.semaphore.permits = 0 := by
    intro hpos
    obtain ⟨t, ht, hr⟩ := List.countP_pos_iff.1 hpos
    cases t with
    | running c p => exact (Point.eq_acquire (hq c p ht)).2
    | finished c a => cases hr
  obtain ⟨h1, h2, h3, -, -⟩ := hb
  have htally := tally_eq fun c p ht => (hsleeping c p ht).2
  simp only [htally, reduceCtorEq, or_self, or_true, true_or, if_true, if_false] at h1 h2 h3
  have heither := r.either
  rw [Rest.balance] at h3
  have hblocked : k.blocked = r.asleep := by omega
  refine ⟨?_, hblocked, hsleeping, hwoken,
    hblocked ▸ countP_sleeps (fun c p ht => (hsleeping c p ht).1) hwoken⟩
  have hcount : k.state.semaphore.count = .ofInt r.balance := by
    rw [Rest.balance, ← Int64.ofInt_toInt k.state.semaphore.count]
    exact congrArg _ (by omega)
  have hnone : k.state.semaphore.permits = 0 := by omega
  change (⟨k.state.sleepers, ⟨k.state.semaphore.count, k.state.semaphore.permits⟩⟩ : Gate) = _
  rw [h1, hcount, hnone, hblocked]

theorem AtRest.toInt_count (h : AtRest r k) (hr : r.Small) :
    k.state.semaphore.count.toInt = r.balance := by
  have hfits : Fits r.balance := by
    simp only [Rest.Small] at hr
    constructor <;> simp only [Rest.balance] <;> omega
  rw [h.state, Int64.toInt_ofInt]
  exact Int.bmod_eq_of_le hfits.1 hfits.2

end Resting

section Errands

variable {r r' : Rest} {op : Errand α} {j k : Callers α}
  {log : List (Crew.Entry Gate (Call α) (Point α) (Reply α))}

theorem AtRest.settles {new : List (Caller α)} (up down : Nat) (hj : AtRest r j) (hr : r.Small)
    (hr' : r'.Small) (hknows : ∀ t ∈ new, Knows t)
    (hnew : ∀ x, tally ⟨j.state, new⟩ x =
      if x = .coming then up else if x = .going then down else 0)
    (hone : up = 0 ∨ down = 0) (hz : r'.balance = r.balance + up - down)
    (h : Crew.Run (calls α) (fun _ _ => False) ⟨j.state, j.threads ++ new⟩ log k)
    (hq : Crew.Quiet (calls α) k) : AtRest r' k := by
  have hcount := hj.toInt_count hr
  have hsleepers : j.state.sleepers = r.asleep := by rw [hj.state]
  have hpermits : j.state.semaphore.permits = 0 := by rw [hj.state]
  have htally (x : Count) : tally ⟨j.state, j.threads ++ new⟩ x =
      (if x = .declared ∨ x = .acquiring then r.asleep else 0) +
        if x = .coming then up else if x = .going then down else 0 := by
    rw [tally, Crew.total_append, ← hj.blocked]
    exact congrArg₂ _ (tally_eq (fun c p ht => (hj.sleeping c p ht).2) x) (hnew x)
  have heither := r.either
  simp only [Rest.Small, Rest.balance] at hr hr' hz hcount
  have hb : Balanced r'.balance j.state (tally ⟨j.state, j.threads ++ new⟩) := by
    refine ⟨?_, ?_, ?_, ?_, ?_⟩ <;>
      simp only [htally, hsleepers, hpermits, hcount, Rest.balance, reduceCtorEq, or_self, or_true,
        true_or, if_true, if_false] <;> omega
  obtain ⟨hb, hk⟩ := run_balanced hb (fun t ht => (List.mem_append.1 ht).elim (hj.knows t)
    (hknows t)) h
  exact atRest_of_balanced hb hk hq

def Tells (x : Reply α) : Caller α → Prop
  | .running _ (.notify (.post n _)) => x = .posted n
  | .running _ _ => False
  | .finished _ y => x = y

theorem tells_land {x : Reply α} {g : Gate} {c : Call α} {p : Point α}
    {a : Move Gate (Point α) (Reply α)} (ha : a ∈ (calls α).moves g p)
    (h : Tells x (.running c p)) : Tells x (a.land c).2 := by
  rcases p with (limit | ⟨n, p⟩) | ⟨r, p⟩
  · exact h.elim
  · obtain ⟨b, hb, rfl⟩ := List.mem_map.1 ha
    obtain ⟨d, -, rfl⟩ := List.mem_map.1 hb
    cases d <;> exact h
  · exact h.elim

theorem answer_of_run {x : Reply α} {s : Gate} {old : List (Caller α)} {t : Caller α}
    (h : Crew.Run (calls α) (fun _ _ => False) ⟨s, old ++ [t]⟩ log k)
    (hq : Crew.Quiet (calls α) k) (ht : Tells x t) :
    ∃ c, k.threads[old.length]? = some (.finished c x) := by
  have hlt : old.length < k.threads.length := by
    rw [← h.later.length_eq]
    simp
  have hget := List.getElem?_eq_getElem hlt
  have htells : Tells x k.threads[old.length] := by
    refine h.thread (fun i _ u => i = old.length → Tells x u) ?_ (fun _ _ _ _ hc => hc.elim)
      (fun _ _ _ _ _ => id) (fun _ _ _ _ _ _ _ _ ha ih hi => tells_land ha (ih hi)) hget rfl
    rintro i u hu rfl
    obtain rfl : t = u := by simpa using hu
    exact ht
  rw [hget]
  rcases hu : k.threads[old.length] with ⟨c, p⟩ | ⟨c, y⟩
  · rw [hu] at htells
    obtain ⟨⟨r, rfl⟩, -⟩ := Point.eq_acquire (hq c p (hu ▸ List.getElem_mem hlt))
    exact htells.elim
  · rw [hu] at htells
    exact ⟨c, by rw [show x = y from htells]⟩

theorem AtRest.posts {l : Notify} {answer n : Nat} (hj : AtRest r j) (hr : r.Small)
    (hr' : r'.Small) (hz : r'.balance = r.balance + n)
    (h : Crew.Run (calls α) (fun _ _ => False)
      ⟨j.state, j.threads ++ [.running (.notify l) (.notify (.post answer (.add n)))]⟩ log k)
    (hq : Crew.Quiet (calls α) k) :
    AtRest r' k ∧ ∃ c, k.threads[j.threads.length]? = some (.finished c (.posted answer)) := by
  refine ⟨hj.settles n 0 hr hr' ?_ ?_ (.inr rfl) (by rw [hz, Int.natCast_zero, Int.sub_zero]) h hq,
    answer_of_run h hq rfl⟩
  · intro t ht
    obtain rfl := List.mem_singleton.1 ht
    trivial
  · intro x
    cases x <;> rfl

theorem AtRest.tells {c : Call α} {x : Reply α} (hj : AtRest r j) (hr : r.Small)
    (hc : c ≠ .sleep .miss)
    (h : Crew.Run (calls α) (fun _ _ => False) ⟨j.state, j.threads ++ [.finished c x]⟩ log k)
    (hq : Crew.Quiet (calls α) k) :
    AtRest r k ∧ ∃ c, k.threads[j.threads.length]? = some (.finished c x) := by
  refine ⟨hj.settles 0 0 hr hr ?_ ?_ (.inr rfl) (by simp) h hq, answer_of_run h hq rfl⟩
  · intro t ht
    obtain rfl := List.mem_singleton.1 ht
    rcases c with n | v | _ <;> trivial
  · intro y
    cases y <;> rfl

theorem AtRest.looks {limit : Nat} (hj : AtRest r j) (hr : r.Small) (hr' : r'.Small)
    (hz : r'.balance = r.balance + (min r.asleep limit : Nat))
    (h : Crew.Run (calls α) (fun _ _ => False)
      ⟨j.state, j.threads ++ [.running (.notify (.look limit)) (.notify (.look limit))]⟩ log k)
    (hq : Crew.Quiet (calls α) k) : AtRest r' k ∧
      ∃ c, k.threads[j.threads.length]? = some (.finished c (.posted (min r.asleep limit))) := by
  have hsleepers : j.state.sleepers = r.asleep := by rw [hj.state]
  have hstuck := hj.stuck (g := j.state) (by rw [hj.state])
  -- all others sleep until the caller has looked, and so it sees them all
  cases hm : min r.asleep limit with
  | zero =>
    obtain ⟨recent, h⟩ := h.forced hstuck (moves_look_none (hsleepers ▸ hm)) hq
    rw [hm, Int.natCast_zero, Int.add_zero] at hz
    obtain rfl := Rest.eq_of_balance hz
    exact hj.tells hr (by simp) h hq
  | succ n =>
    obtain ⟨recent, h⟩ := h.forced hstuck (moves_look_some (hsleepers ▸ hm)) hq
    exact hj.posts hr hr' (hm ▸ hz) h hq

theorem AtRest.rechecks {v : α} (hj : AtRest r j) (hr : r.Small)
    (h : Crew.Run (calls α) (fun _ _ => False)
      ⟨j.state, j.threads ++ [.running (.sleep (.hit v)) (.sleep (.hit v) .declare)]⟩ log k)
    (hq : Crew.Quiet (calls α) k) : AtRest r k ∧
      ∃ c, k.threads[j.threads.length]? = some (.finished c (.found v (r.asleep + 1))) := by
  have hpermits : j.state.semaphore.permits = 0 := by rw [hj.state]
  have hsleepers : j.state.sleepers = r.asleep := by rw [hj.state]
  have hstuck : ∀ c p, .running c p ∈ j.threads → (calls α).moves j.state.enter p = [] :=
    hj.stuck hpermits
  have hleave : j.state.enter.leave = j.state := by simp [enter, leave]
  obtain ⟨_, hchecks⟩ := h.forced (a := .go j.state.enter (.sleep (.hit v) (.recheck (.hit v))))
    (hj.stuck hpermits) rfl hq
  obtain ⟨_, hfinds⟩ := Crew.Run.forced
    (a := .go j.state.enter (.sleep (.hit v) (.retract (v, j.state.sleepers + 1))))
    hstuck rfl hchecks hq
  obtain ⟨_, hleaves⟩ := Crew.Run.forced
    (a := .done j.state.enter.leave (.found v (j.state.sleepers + 1))) hstuck rfl hfinds hq
  simp only [Move.land, hleave, hsleepers] at hleaves
  exact hj.tells hr (by simp) hleaves hq

theorem Errand.begin_eq (op : Errand α) (j : Callers α) :
    op.begin j = ⟨j.state, j.threads ++ op.calls.map fun c => .running c c.enter⟩ :=
  Crew.foldl_start j op.calls

theorem started_of_run (h : Crew.Run (calls α) (fun _ _ => False) (op.begin j) log k) :
    started k = started j + op.calls.countP Call.sleeps := by
  have hcount : started k = started (op.begin j) :=
    Thread.Later.countP_eq (f := Call.sleeps) h.later
  rw [hcount, Errand.begin_eq, started, started, List.countP_append, List.countP_map]
  rfl

theorem AtRest.settled_of_run (hj : AtRest r j) (hr : r.Small) (hr' : (r.after op).Small)
    (h : Crew.Run (calls α) (fun _ _ => False) (op.begin j) log k)
    (hq : Crew.Quiet (calls α) k) : AtRest (r.after op) k ∧
      ∀ a, r.answer op = some a → ∃ c, k.threads[j.threads.length]? = some (.finished c a) := by
  have heither := r.either
  rw [Errand.begin_eq] at h
  cases op with
  | sleep n =>
    rw [Errand.calls, List.map_replicate] at h
    refine ⟨hj.settles 0 n hr hr' ?_ ?_ (.inl rfl) ?_ h hq, by simp [Rest.answer]⟩
    · intro t ht
      rw [List.eq_of_mem_replicate ht]
      simp [Call.enter, Knows]
    · intro x
      simp only [tally, Crew.total, List.map_replicate, List.sum_replicate, nsmul_eq_mul]
      cases x <;> simp [Call.enter, Count.of]
    · simp only [Rest.after, Rest.balance]
      omega
  | recheck v =>
    obtain ⟨hk, ha⟩ := hj.rechecks hr h hq
    exact ⟨hk, by rintro a ⟨⟩; exact ha⟩
  | notifyOne =>
    have hone : min r.asleep 1 = if 0 < r.asleep then 1 else 0 := by split <;> omega
    obtain ⟨hk, ha⟩ := hj.looks hr hr' (by simp only [Rest.after, Rest.balance]; omega) h hq
    exact ⟨hk, by rintro a ⟨⟩; exact hone ▸ ha⟩
  | notifyUpTo limit =>
    obtain ⟨hk, ha⟩ := hj.looks hr hr' (by simp only [Rest.after, Rest.balance]; omega) h hq
    exact ⟨hk, by rintro a ⟨⟩; exact ha⟩
  | notifyAll =>
    have hall : min r.asleep (UInt64.size - 1) = r.asleep := by
      have hsize : UInt64.size = 2 ^ 64 := rfl
      simp only [Rest.Small] at hr
      omega
    obtain ⟨hk, ha⟩ := hj.looks hr hr'
      (by rw [hall]; simp only [Rest.after, Rest.balance]; omega) h hq
    exact ⟨hk, by rintro a ⟨⟩; exact hall ▸ ha⟩
  | post =>
    obtain ⟨hk, ha⟩ := hj.posts hr hr'
      (by simp only [Rest.after, Rest.balance]; split <;> omega) h hq
    exact ⟨hk, by rintro a ⟨⟩; exact ha⟩

theorem AtRest.serves (hj : AtRest r j) (hr : r.Small) (hr' : (r.after op).Small)
    (h : Crew.Run (calls α) (fun _ _ => False) (op.begin j) log k)
    (hq : Crew.Quiet (calls α) k) : Serves r op j k := by
  obtain ⟨hk, ha⟩ := hj.settled_of_run hr hr' h hq
  refine ⟨hk, ?_, ha⟩
  have hstarted := started_of_run h
  have hwakes := r.wakes_add op
  have hbefore := hj.accounted
  have hafter := hk.accounted
  omega

theorem weight_enter_le (c : Call α) : weight (.running c c.enter : Caller α) ≤ 5 := by
  rcases c with (limit | ⟨n, _ | _⟩) | r <;> simp [Call.enter, weight, Notify.weight, Sleep.weight]

/-- A call takes five steps at most, and one that sleeps has two to go. -/
theorem AtRest.length_le (hj : AtRest r j)
    (h : Crew.Run (calls α) (fun _ _ => False) (op.begin j) log k) :
    log.length ≤ 2 * r.asleep + 5 * op.calls.length := by
  have hlog := h.length_add_le weight_land_lt
  have hold : Crew.total weight j ≤ r.asleep + r.asleep := by
    rw [← hj.blocked, Crew.blocked, ← Crew.total_countP, ← Crew.total_add]
    refine Crew.total_le fun t ht => ?_
    rcases hj.mem_cases ht with ⟨c, a, rfl⟩ | rfl
    · exact Nat.zero_le _
    · exact Nat.le_refl 2
  have hnew : Crew.total weight ⟨j.state, op.calls.map fun c => .running c c.enter⟩ ≤
      op.calls.length * 5 := by
    rw [← List.length_map (fun c : Call α => (.running c c.enter : Caller α))]
    refine Crew.total_le_mul fun t ht => ?_
    obtain ⟨c, -, rfl⟩ := List.mem_map.1 ht
    exact weight_enter_le c
  rw [Errand.begin_eq, Crew.total_append] at hlog
  change log.length + _ ≤ Crew.total weight j + _ at hlog
  omega

end Errands

section Scripts

variable {ops : List (Errand α)} {op : Errand α} {j k : Callers α}
  {log : List (Crew.Entry Gate (Call α) (Point α) (Reply α))}

def Rest.afterAll (ops : List (Errand α)) : Rest := ops.foldl Rest.after .start

inductive Performed : List (Errand α) → Callers α → Prop where
  | none : Performed [] ⟨{}, []⟩
  | next {ops : List (Errand α)} {op : Errand α} {j k : Callers α}
      {log : List (Crew.Entry Gate (Call α) (Point α) (Reply α))} (hj : Performed ops j)
      (h : Crew.Run (calls α) (fun _ _ => False) (op.begin j) log k)
      (hq : Crew.Quiet (calls α) k) : Performed (ops ++ [op]) k

def Fitting (ops : List (Errand α)) : Prop := ∀ part, part <+: ops → (Rest.afterAll part).Small

instance (ops : List (Errand α)) : Decidable (Fitting ops) :=
  decidable_of_iff (∀ part ∈ ops.inits, (Rest.afterAll part).Small)
    ⟨fun h part hp => h part ((List.mem_inits part ops).2 hp),
      fun h part hp => h part ((List.mem_inits part ops).1 hp)⟩

theorem Fitting.of_append {more : List (Errand α)} (h : Fitting (ops ++ more)) : Fitting ops :=
  fun _ hp => h _ (hp.trans (List.prefix_append ops more))

theorem Fitting.small (h : Fitting ops) : (Rest.afterAll ops).Small := h ops List.prefix_rfl

theorem afterAll_append (ops : List (Errand α)) (op : Errand α) :
    Rest.afterAll (ops ++ [op]) = (Rest.afterAll ops).after op := by
  simp [Rest.afterAll]

theorem atRest_start : AtRest .start (⟨{}, []⟩ : Callers α) :=
  ⟨rfl, rfl, by simp, by simp, rfl⟩

theorem Performed.atRest (hf : Fitting ops) (h : Performed ops k) :
    AtRest (Rest.afterAll ops) k := by
  induction h with
  | none => exact atRest_start
  | next hj h hq ih =>
    rw [afterAll_append]
    exact ((ih hf.of_append).serves hf.of_append.small (afterAll_append _ _ ▸ hf.small) h hq).rest

theorem script_settles (hf : Fitting (ops ++ [op])) (hj : Performed ops j)
    (h : Crew.Run (calls α) (fun _ _ => False) (op.begin j) log k) :
    AtRest (Rest.afterAll ops) j ∧
      log.length ≤ 2 * (Rest.afterAll ops).asleep + 5 * op.calls.length ∧
      (∃ more l, Crew.Run (calls α) (fun _ _ => False) k more l ∧ Crew.Quiet (calls α) l) ∧
      (Crew.Quiet (calls α) k → Serves (Rest.afterAll ops) op j k) := by
  have hrest := hj.atRest hf.of_append
  exact ⟨hrest, hrest.length_le h, Crew.exists_quiet weight_land_lt k,
    hrest.serves hf.of_append.small (afterAll_append ops op ▸ hf.small) h⟩

theorem performed_of_play (op : Errand α) (cues : List (Crew.Cue (Call α))) (hj : Performed ops j)
    (h : (Crew.play (calls α) (fun _ _ => false) cues [] (op.begin j)).map
      (fun x => (x.2, x.2.isQuiet (calls α))) = some (k, true)) : Performed (ops ++ [op]) k := by
  obtain ⟨log, l, hrun, hl⟩ := Crew.exists_run_of_play (fun _ _ => Bool.false_ne_true) h
  obtain ⟨rfl, hq⟩ := Prod.mk.inj hl
  exact hj.next hrun (Crew.isQuiet_iff.1 hq)

abbrev oneAsleep : Callers Nat :=
  ⟨⟨1, ⟨-1, 0⟩⟩, [.finished (.notify .always) (.posted 1),
    .running (.sleep .miss) (.sleep .miss (.wait .acquire)), .finished (.sleep .miss) .woken]⟩

/-- Of two threads that go to sleep, the later one takes the banked permit. The other is woken by
a notification of all. -/
theorem script_settles_overtaken : Fitting ([.post, .sleep 2] ++ [.notifyAll] : List (Errand Nat)) ∧
    Performed [.post, .sleep 2] oneAsleep ∧ ∃ log k,
      Crew.Run (calls Nat) (fun _ _ => False) (Errand.notifyAll.begin oneAsleep) log k ∧
      Crew.Quiet (calls Nat) k ∧ log.length = 5 ∧ AtRest ⟨1, 0, .inr rfl⟩ oneAsleep ∧
      Serves ⟨1, 0, .inr rfl⟩ .notifyAll oneAsleep k := by
  have hf : Fitting ([.post, .sleep 2] ++ [.notifyAll] : List (Errand Nat)) := by decide
  have hbanked : Performed ([] ++ [.post])
      (⟨⟨0, ⟨1, 0⟩⟩, [.finished (.notify .always) (.posted 1)]⟩ : Callers Nat) :=
    performed_of_play .post [.move 0 0] .none (by rfl)
  have hasleep : Performed ([.post] ++ [.sleep 2]) oneAsleep :=
    performed_of_play (.sleep 2) [.move 1 0, .move 2 0, .move 1 0, .move 2 0, .move 2 0, .move 1 0,
      .move 2 0] hbanked (by rfl)
  have hplay : (Crew.play (calls Nat) (fun _ _ => false)
      [.move 3 0, .move 3 0, .move 3 0, .move 1 0, .move 1 0] []
      (Errand.notifyAll.begin oneAsleep)).map
        (fun x => (x.1.length, x.2.isQuiet (calls Nat))) = some (5, true) := by rfl
  obtain ⟨log, k, hrun, hx⟩ := Crew.exists_run_of_play (fun _ _ => Bool.false_ne_true) hplay
  obtain ⟨hlength, hq⟩ := Prod.mk.inj hx
  obtain ⟨hrest, -, -, hserves⟩ := script_settles hf hasleep hrun
  exact ⟨hf, hasleep, log, k, hrun, Crew.isQuiet_iff.1 hq, hlength, hrest,
    hserves (Crew.isQuiet_iff.1 hq)⟩

end Scripts

end WorkStealing.Gate
