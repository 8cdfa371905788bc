import WorkStealing.Blocking.Script
import WorkStealing.Proofs.Blocking.Drain
import WorkStealing.Proofs.Crew.Alone
import WorkStealing.Proofs.Queue.Plain

namespace WorkStealing.Blocking

open Queue (Part Staged)
open Role

variable {Q α E D : Type}

/-- One thread makes all calls but those of the blocking consumers, one after the other. -/
def Driver (k : Threads Q α E D) (c : Call α) : Prop :=
  c = .dequeue ∨ ∀ d p, .running d p ∈ k.threads → d = .dequeue

/-- Every call but those of blocking consumers has returned, and these sleep if they have not. -/
def Settled (k : Threads Q α E D) : Prop :=
  ∀ c p, .running c p ∈ k.threads →
    c = .dequeue ∧ p = .dequeue (.sleep (.wait .acquire)) ∧ k.state.gate.semaphore.permits = 0

def driver (k : Threads Q α E D) : Call α → Bool
  | .dequeue => true
  | _ => k.threads.all fun
    | .running .dequeue _ | .finished _ _ => true
    | .running _ _ => false

theorem driver_of (k : Threads Q α E D) (c : Call α) (h : driver k c) : Driver k c := by
  by_cases hc : c = .dequeue
  · exact .inl hc
  · refine .inr fun d p ht => ?_
    have hall := List.all_eq_true.1 (by cases c <;> first | exact h | exact absurd rfl hc) _ ht
    cases d <;> first | rfl | cases hall

def settled (k : Threads Q α E D) : Bool :=
  k.threads.all fun
    | .running .dequeue (.dequeue (.sleep (.wait .acquire))) => k.state.gate.semaphore.permits == 0
    | .running _ _ => false
    | .finished _ _ => true

theorem settled_of (k : Threads Q α E D) (h : settled k) : Settled k := by
  intro c p ht
  have hall := List.all_eq_true.1 h _ ht
  revert hall
  split <;> simp_all

def Proper : Caller α E D → Prop
  | .running (.enqueue _) (.enqueue _) | .running .dequeue (.dequeue _) => True
  | .running .tryDequeue (.tryDequeue _) | .running .close (.close _) => True
  | .finished (.enqueue _) (.pushed _) | .finished .dequeue (.popped _) => True
  | .finished .tryDequeue (.popped _) | .finished .close .closed => True
  | _ => False

def consumed? : Caller α E D → Option (Except PopError α)
  | .finished .dequeue (.popped r) => some r
  | _ => none

def tried? : Caller α E D → Option (Except PopError α)
  | .finished .tryDequeue (.popped r) => some r
  | _ => none

def consumed (k : Threads Q α E D) : List (Except PopError α) := k.threads.filterMap consumed?

def tried (k : Threads Q α E D) : List (Except PopError α) := k.threads.filterMap tried?

def values (rs : List (Except PopError α)) : List α := rs.filterMap Except.toOption

def Call.isDequeue : Call α → Bool
  | .dequeue => true
  | .enqueue _ | .tryDequeue | .close => false

theorem isClose_iff {t : Caller α E D} : isClose t ↔ t.call = .close := by
  rcases t with ⟨_ | _ | _ | _, p⟩ | ⟨_ | _ | _ | _, r⟩ <;> simp [isClose, Thread.call]

theorem producing_eq_zero {t : Caller α E D} (h : t.call = .dequeue) : producing t = 0 := by
  rcases t with ⟨_ | _ | _ | _, p⟩ | ⟨c, r⟩ <;> first | rfl | cases h

theorem accepted?_eq_none {t : Caller α E D} (h : t.call = .dequeue) : accepted? t = none := by
  rcases t with ⟨_ | _ | _ | _, p⟩ | ⟨_ | _ | _ | _, r | r | _⟩ <;> first | rfl | cases h

theorem tried?_eq_none {t : Caller α E D} (h : t.call = .dequeue) : tried? t = none := by
  rcases t with ⟨_ | _ | _ | _, p⟩ | ⟨_ | _ | _ | _, r | r | _⟩ <;> first | rfl | cases h

section

variable {k : Threads Q α E D}

theorem Driver.oneByOne {c : Call α} (h : Driver k c) : OneByOne k c := by
  rintro ⟨v, rfl⟩ t ht
  rcases t with ⟨d, p⟩ | ⟨d, r⟩
  · exact producing_eq_zero (h.resolve_left (by simp) d p ht)
  · rfl

theorem Settled.cases (h : Settled k) {t : Caller α E D} (ht : t ∈ k.threads) :
    (∃ c r, t = .finished c r) ∨ t = .running .dequeue (.dequeue (.sleep (.wait .acquire))) := by
  rcases t with ⟨c, p⟩ | ⟨c, r⟩
  · obtain ⟨rfl, rfl, -⟩ := h c p ht
    exact .inr rfl
  · exact .inl ⟨c, r, rfl⟩

theorem Settled.outside (h : Settled k) : ∀ t ∈ k.threads, Outside t := by
  intro t ht
  rcases h.cases ht with ⟨c, r, rfl⟩ | rfl <;> trivial

theorem countP_returned (hp : ∀ t ∈ k.threads, Proper t) (f : α → Bool) :
    (returned k).countP f = (values (consumed k)).countP f + (values (tried k)).countP f := by
  have hone {t : Caller α E D} (ht : Proper t) : (returned? t).toList.countP f =
      ((consumed? t).bind Except.toOption).toList.countP f +
        ((tried? t).bind Except.toOption).toList.countP f := by
    rcases t with ⟨c, p⟩ | ⟨c, r⟩
    · rfl
    · rcases c with v | _ | _ | _ <;> rcases r with r | (_ | _) | _ <;>
        first | rfl | exact ht.elim | simp [returned?, consumed?, tried?, Except.toOption]
  rw [returned, consumed, tried, values, values, List.filterMap_filterMap, List.filterMap_filterMap]
  generalize k.threads = ts at hp
  induction ts with
  | nil => rfl
  | cons t ts ih =>
    have hhead := hone (hp t List.mem_cons_self)
    have htail := ih fun u hu => hp u (List.mem_cons_of_mem t hu)
    simp only [toList_append_filterMap, List.countP_append]
    omega

theorem countP_dequeue (hs : Settled k) (hp : ∀ t ∈ k.threads, Proper t) :
    k.threads.countP (fun t => t.call.isDequeue) = (consumed k).length + k.blocked := by
  have hone {t : Caller α E D} (ht : t ∈ k.threads) : (if t.call.isDequeue then 1 else 0) =
      (consumed? t).toList.length + if t.isRunning then 1 else 0 := by
    have := hp t ht
    rcases hs.cases ht with ⟨c, r, rfl⟩ | rfl
    · rcases c with v | _ | _ | _ <;> rcases r with r | r | _ <;> first | rfl | exact this.elim
    · rfl
  rw [consumed, Crew.blocked]
  generalize k.threads = ts at hone
  induction ts with
  | nil => rfl
  | cons t ts ih =>
    have hhead := hone List.mem_cons_self
    have htail := ih fun hu => hone (List.mem_cons_of_mem t hu)
    simp only [List.countP_cons, toList_append_filterMap, List.length_append]
    omega

theorem dismissed_of_consumed {e : PopError} (h : .error e ∈ consumed k) :
    .finished .dequeue (.popped (.error e)) ∈ k.threads := by
  obtain ⟨t, ht, he⟩ := List.mem_filterMap.1 h
  rcases t with ⟨c, p⟩ | ⟨_ | _ | _ | _, r | r | _⟩ <;> simp [consumed?] at he
  exact he ▸ ht

end

section

variable [Queue Q α E D] {spins : Nat} {q : Blocking Q} {c : Call α} {p : Point α E D}
  {a : Move (Blocking Q) (Point α E D) (Reply α)} {k : Threads Q α E D} {log : Log Q α}
  {allowed : Threads Q α E D → Call α → Prop}

theorem proper_land (ha : a ∈ p.moves spins q) (hp : Proper (.running c p)) :
    Proper (a.land c).2 := by
  rcases c with v | _ | _ | _ <;> rcases p with p | p | p | p <;> try exact hp.elim
  all_goals
    obtain ⟨b, -, rfl⟩ := List.mem_map.1 ha
    cases b <;> trivial

theorem run_proper {b : Q} (h : Crew.Run (calls spins) allowed ⟨⟨b, {}, false⟩, []⟩ log k) :
    ∀ t ∈ k.threads, Proper t := by
  intro t ht
  obtain ⟨i, hi⟩ := List.mem_iff_getElem?.1 ht
  refine h.thread (fun _ _ t => Proper t) (by simp) (fun _ _ c _ _ => ?_) (fun _ _ _ _ _ h => h)
    (fun _ _ _ _ _ _ _ _ ha hp => proper_land ha hp) hi
  cases c <;> trivial

theorem run_dutiful {b : Q} (h : Crew.Run (calls spins) Driver ⟨⟨b, {}, false⟩, []⟩ log k) :
    Crew.Run (calls spins) Dutiful ⟨⟨b, {}, false⟩, []⟩ log k := by
  induction h with
  | refl => exact .refl
  | move _ ha ih => exact ih.move ha
  | start _ c hc ih =>
    rename_i k _
    refine ih.start c ?_
    have hshut := run_shut ih
    cases c with
    | dequeue | tryDequeue => trivial
    | close =>
      refine .inr fun t ht => ?_
      rcases t with ⟨d, p⟩ | ⟨d, r⟩
      · exact producing_eq_zero (hc.resolve_left (by simp) d p ht)
      · rfl
    | enqueue v =>
      -- a call to close the queue is over, and so the flag is up
      by_cases hclose : ∃ t ∈ k.threads, isClose t = true
      · obtain ⟨t, ht, hct⟩ := hclose
        refine .inl (hshut.told t ht ?_)
        rw [isClose_iff] at hct
        rcases t with ⟨d, p⟩ | ⟨d, r⟩
        · obtain rfl : d = .close := hct
          exact absurd (hc.resolve_left (by simp) _ p ht) (by simp)
        · obtain rfl : d = .close := hct
          have := run_proper ih _ ht
          cases r <;> first | exact this.elim | trivial
      · exact .inr (by simpa using hclose)

section Rest

theorem Settled.quiet (h : Settled k) : Crew.Quiet (calls spins) k := by
  intro c p ht
  obtain ⟨rfl, rfl, hp⟩ := h c p ht
  change List.map _ (List.map _ (List.map _ _)) = []
  simp [Semaphore.Wait.moves, Gated.gate, hp]

variable [Staged Q α E D]

theorem Settled.inHand_eq (h : Settled k) : inHand k = [] := by
  refine inHand_eq_nil fun t ht => ?_
  rcases h.cases ht with ⟨c, r, rfl⟩ | rfl <;> rfl

theorem part_hold_finished (f : α → Bool) (c : Call α) (r : Reply α) (x : Hold) :
    part Q f (.finished c r) (.hold x) = 0 := by
  rcases c with _ | _ | _ | _ <;> rcases r with (_ | _) | (_ | _) | _ <;> rfl

theorem Settled.idle (h : Settled k) (f : α → Bool) :
    Idle fun x => ((k.threads : Multiset (Caller α E D)).map (part Q f)).sum (.hold x) := by
  refine fun s p _ => sum_eq_zero fun t ht => ?_
  rcases h.cases (Multiset.mem_coe.1 ht) with ⟨c, r, rfl⟩ | rfl
  · exact part_hold_finished f c r _
  · rfl

theorem Settled.sum_role (h : Settled k) (r : Role) :
    ((k.threads : Multiset (Caller α E D)).map (role Q)).sum r =
      if r = acquiring then k.blocked else 0 := by
  have hrole : ∀ t ∈ k.threads, role Q t r =
      if t.isRunning then (Pi.single acquiring 1 : Role → Nat) r else 0 := by
    intro t ht
    rcases h.cases ht with ⟨c, y, rfl⟩ | rfl <;> rfl
  rw [sum_apply]
  change (k.threads.map fun t => role Q t r).sum = _
  rw [List.map_congr_left hrole]
  split
  · subst r
    exact Crew.total_countP Thread.isRunning k
  · rename_i hr
    exact Crew.total_eq_zero fun t _ => by simp [hr]

theorem claim_eq_given {t : Caller α E D} (ht : Outside t) :
    part Q (fun _ => true) t .claim = part Q (fun _ => true) t .given := by
  rcases t with ⟨v | _ | _ | _, (w | e | m) | p | p | p⟩ | ⟨v | _ | _ | _, (e | _) | r | _⟩
  all_goals first
    | rfl
    | exact ht.elim
    | (rw [part_eq_zero (fun _ => rfl) (fun _ => rfl) (by simp) (by simp),
        part_eq_zero (fun _ => rfl) (fun _ => rfl) (by simp) (by simp)])

theorem Kept.length_values {lucid turns : Prop} {n : Nat} {g : Ghost α}
    (hk : Kept lucid n (fun _ => true) .start turns log g k.state k.threads) (hs : Settled k) :
    g.values.length = (accepted k).length := by
  have hclaim : ((k.threads : Multiset (Caller α E D)).map (part Q fun _ => true)).sum .claim =
      ((k.threads : Multiset (Caller α E D)).map (part Q fun _ => true)).sum .given := by
    rw [sum_apply, sum_apply]
    exact congrArg Multiset.sum (Multiset.map_congr rfl fun t ht => claim_eq_given (hs.outside t ht))
  rw [hk.balanced.stored.size, hclaim, given_sum hs.outside, List.countP_true]
  exact Nat.zero_add _

theorem tracks_of_run {n : Nat} {b : Q} (hb : Staged.Tracks n b (Ghost.start : Ghost α) 0)
    (h : Crew.Run (calls spins) Driver ⟨⟨b, {}, false⟩, []⟩ log k) (hx : Exact log)
    (hwrap : Staged.Wraps Q → offers k < 2 ^ 63) (hs : Settled k) :
    ∃ g m, Staged.Tracks n k.state.base g m ∧ Idle m := by
  obtain ⟨g, hk, -⟩ := run_kept False False (fun _ => false) hb False.elim h hx False.elim
    fun hw => by simpa [Ghost.start] using hwrap hw
  exact ⟨g, _, hk.balanced.stored.tracks, hs.idle _⟩

end Rest

structure AtRest [Holding Q α] (k : Threads Q α E D) : Prop where
  settled : Settled k
  proper : ∀ t ∈ k.threads, Proper t
  shut : Shut k
  accounted : (accepted k).Perm (returned k ++ Holding.items k.state.base)
  sleepers : k.state.gate.sleepers = k.blocked
  waiting : 0 < k.blocked → Holding.items k.state.base = [] ∧ k.state.closed = false
  told : ∀ e, .error e ∈ consumed k →
    e = .closed ∧ k.state.closed = true ∧ Holding.items k.state.base = []

section Run

variable [Holding Q α] [Staged Q α E D] {n : Nat} {room : Option Nat} {b : Q}

theorem Kept.countP_of_settled {lucid turns : Prop} {f : α → Bool} {g : Ghost α}
    (hplain : Queue.Plain Q n room)
    (hk : Kept lucid n f .start turns log g k.state k.threads)
    (hknows : ∀ t ∈ k.threads, Knows Q n g t) (hs : Settled k) : (accepted k).countP f =
      (returned k).countP f + (Holding.items k.state.base).countP f := by
  have hstored := hk.balanced.stored
  have hidle := hs.idle f
  have hledger := hstored.ledger
  have hcarries := hk.carries hknows
  rw [hs.inHand_eq, List.append_nil, Carries,
    g.carried_eq_zero f (fun p => hidle .taken p (by decide)) fun p => hidle .read p (by decide)]
    at hcarries
  rw [Ghost.stock_start, given_sum hs.outside,
    (Staged.orderly hstored.tracks).stock_eq hidle] at hledger
  rw [hplain.items hstored.tracks hidle, accepted]
  omega

theorem atRest_of_run (hplain : Queue.Plain Q n room)
    (hb : Staged.Tracks n b (Ghost.start : Ghost α) 0)
    (h : Crew.Run (calls spins) Driver ⟨⟨b, {}, false⟩, []⟩ log k) (hx : Exact log)
    (hwrap : Staged.Wraps Q → offers k < 2 ^ 63) (hq : Crew.Quiet (calls spins) k) : AtRest k := by
  have hwrap' : Staged.Wraps Q → (Ghost.start : Ghost α).values.length + offers k < 2 ^ 63 :=
    fun hw => by simpa [Ghost.start] using hwrap hw
  have hkept (f : α → Bool) := run_kept True
    (∀ (k : Threads Q α E D) c, Driver k c → OneByOne k c) f hb
    (fun _ => ⟨Ghost.clear_start, fun _ _ => Driver.oneByOne⟩) h hx
    (fun _ => .inr (.inl fun _ _ => Driver.oneByOne)) hwrap'
  have hduty := run_dutiful h
  have hshut := run_shut hduty
  obtain ⟨g, hk, hknows⟩ := hkept fun _ => false
  have hs : Settled k := fun c p ht => hk.stuck hknows hq ht
  have hitems := hplain.items hk.balanced.stored.tracks (hs.idle _)
  have haccounted : (accepted k).Perm (returned k ++ Holding.items k.state.base) := by
    refine perm_of_countP fun f => ?_
    obtain ⟨g, hk, hknows⟩ := hkept f
    rw [List.countP_append]
    exact hk.countP_of_settled hplain hknows hs
  refine ⟨hs, run_proper h, hshut, haccounted, ?_, fun hpos => ?_, fun e he => ?_⟩
  · have := hk.balanced.awake.sleepers
    simp only [hs.sum_role] at this
    simpa using this
  · obtain ⟨t, ht, hr⟩ := List.countP_pos_iff.1 hpos
    cases t with
    | finished c r => cases hr
    | running c p =>
      obtain ⟨hready, hopen⟩ := hk.quiet hknows hq ht
      rw [hitems, hk.front_eq hs.outside (hready trivial), List.drop_length]
      exact ⟨rfl, hopen⟩
  · have ht := dismissed_of_consumed he
    obtain rfl : e = .closed := by
      have := hshut.frank _ ht
      cases e with
      | closed => rfl
      | empty => exact absurd rfl this
    refine ⟨rfl, hshut.told _ ht trivial, ?_⟩
    obtain ⟨e, he, hexh⟩ := exhausted_of_dismissed hduty _ ht trivial
    have hall := run_accounted hb hduty hx hwrap he hexh
    rw [hs.inHand_eq, List.append_nil] at hall
    have := (hall.symm.trans haccounted).length_eq
    rw [List.length_append] at this
    exact List.length_eq_zero_iff.1 (by omega)

theorem items_of_run {older recent : Log Q α} {j : Threads Q α E D} (hplain : Queue.Plain Q n room)
    (hb : Staged.Tracks n b (Ghost.start : Ghost α) 0)
    (hj : Crew.Run (calls spins) Driver ⟨⟨b, {}, false⟩, []⟩ older j) (hsj : Settled j)
    (hk : Crew.Run (calls spins) Driver j recent k) (hsk : Settled k)
    (hx : Exact (recent ++ older)) (hwrap : Staged.Wraps Q → offers k < 2 ^ 63) :
    ∃ more r, Holding.items k.state.base = (Holding.items j.state.base ++ more).drop r ∧
      (accepted j).length + more.length = (accepted k).length := by
  have hwrap' : Staged.Wraps Q → (Ghost.start : Ghost α).values.length + offers k < 2 ^ 63 :=
    fun hw => by simpa [Ghost.start] using hwrap hw
  obtain ⟨g, hkj, hknows⟩ := run_kept False False (fun _ => true) hb False.elim hj
    (hx.suffix (List.suffix_append _ _)) False.elim
    fun hw => (Nat.add_le_add_left (offers_le hk) _).trans_lt (hwrap' hw)
  obtain ⟨h, hle, hkk, -⟩ := hkj.run hknows False.elim hk hx False.elim hwrap'
  have hfront := (Staged.orderly hkj.balanced.stored.tracks).front_le
  obtain ⟨more, hmore⟩ := hle.values
  refine ⟨more, h.front - g.front, ?_, ?_⟩
  · rw [hplain.items hkj.balanced.stored.tracks (hsj.idle _),
      hplain.items hkk.balanced.stored.tracks (hsk.idle _), ← List.drop_append_of_le_length hfront,
      hmore, List.drop_drop, Nat.add_sub_of_le hle.front]
  · rw [← hkj.length_values hsj, ← hkk.length_values hsk, ← hmore, List.length_append]

end Run

end

end WorkStealing.Blocking
