import WorkStealing.Proofs.Blocking.Kept
import Mathlib.Data.List.Count

namespace WorkStealing.Blocking

open Queue (Part Staged Stored pushPart popPart givenPart gotPart)

variable {Q α E D : Type}

def accepted? : Caller α E D → Option α
  | .finished (.enqueue v) (.pushed (.ok _)) => some v
  | _ => none

def returned? : Caller α E D → Option α
  | .finished _ (.popped (.ok v)) => some v
  | _ => none

/-- A call that was sent to bring a value has not gone past the flag. -/
def Outside : Caller α E D → Prop
  | .running (.enqueue _) (.enqueue (.flag _)) => True
  | .running (.enqueue _) _ => False
  | _ => True

section

variable [Queue Q α E D]

def accepted (k : Crew (Blocking Q) (Call α) (Point α E D) (Reply α)) : List α :=
  k.threads.filterMap accepted?

def returned (k : Crew (Blocking Q) (Call α) (Point α E D) (Reply α)) : List α :=
  k.threads.filterMap returned?

variable [Staged Q α E D]

def Recheck.hand? (b : Q) : Recheck D → Option α
  | .first d | .last d => Staged.hand b d
  | .flag => none

def Dequeue.hand? (b : Q) : Dequeue α D → Option α
  | .spin _ d | .drain d => Staged.hand b d
  | .sleep (.recheck k) => k.hand? b
  | .sleep (.retract r) => r.toOption
  | .flag | .sleep _ => none

def hand? (b : Q) : Caller α E D → Option α
  | .running _ (.dequeue p) => p.hand? b
  | .running _ (.tryDequeue (.pop d)) => Staged.hand b d
  | _ => none

def inHand (k : Crew (Blocking Q) (Call α) (Point α E D) (Reply α)) : List α :=
  k.threads.filterMap (hand? k.state.base)

variable {lucid turns : Prop} {n : Nat} {f : α → Bool} {g₀ g : Ghost α} {b : Q} {m : Part → Nat}
  {log : Log Q α} {k : Crew (Blocking Q) (Call α) (Point α E D) (Reply α)}

theorem given_eq {t : Caller α E D} (ht : Outside t) :
    part Q f t .given = (accepted? t).toList.countP f := by
  by_cases hr : ∃ v p, t = .running (.enqueue v) (.enqueue p)
  · obtain ⟨v, w | e | x, rfl⟩ := hr
    · rfl
    · exact ht.elim
    · exact ht.elim
  · by_cases hf : ∃ v r, t = .finished (.enqueue v) (.pushed r)
    · obtain ⟨v, e | _, rfl⟩ := hf
      · rfl
      · exact Ghost.toNat_eq_countP f v
    · have hnone : accepted? t = none := by
        rcases t with ⟨c, p⟩ | ⟨v | _ | _ | _, r | r | _⟩
        · rfl
        · exact absurd ⟨v, r, rfl⟩ hf
        all_goals rfl
      rw [hnone]
      exact part_eq_zero (fun _ => rfl) (fun _ => rfl) (by simpa using hr) (by simpa using hf)

/-- What somebody with the given parts has in hand, and has already passed on, comes to `vs`. -/
def Carries (f : α → Bool) (g : Ghost α) (x : Part → Nat) (vs : List α) : Prop :=
  x .got + g.carried f (fun hd => x (.hold hd)) = vs.countP f

theorem carries_zero : Carries f g 0 [] :=
  (Nat.zero_add _).trans (g.carried_eq_zero f (fun _ => rfl) fun _ => rfl)

theorem Carries.add {x y : Part → Nat} {vs ws : List α} (hx : Carries f g x vs)
    (hy : Carries f g y ws) : Carries f g (x + y) (vs ++ ws) := by
  have hsum := g.carried_add f (fun hd => x (.hold hd)) fun hd => y (.hold hd)
  simp only [Carries, Pi.add_apply, List.countP_append] at *
  change g.carried f (fun hd => x (.hold hd) + y (.hold hd)) = _ at hsum
  omega

theorem carries_push (e : E) : Carries f g (pushPart Q e) [] :=
  (Nat.zero_add _).trans (g.carried_eq_zero f (fun p => (Staged.pushHold_eq e p).1)
    fun p => (Staged.pushHold_eq e p).2)

theorem carries_pop {d : D} (ht : Staged.Tracks n b g fun x => (popPart Q d + m) (.hold x))
    (hk : Staged.Popping Q g d) : Carries f g (popPart Q d) (Staged.hand b d).toList :=
  (Nat.zero_add _).trans (Staged.hand_eq f ht hk)

theorem carries_answer (r : Except PopError α) : Carries f g (answer f r) r.toOption.toList := by
  cases r with
  | error e => exact carries_zero
  | ok v =>
    have hz : g.carried f (fun hd => gotPart f v (.hold hd)) = 0 :=
      g.carried_eq_zero f (fun _ => rfl) fun _ => rfl
    rw [Carries, answer, hz, Nat.add_zero]
    exact Ghost.toNat_eq_countP f v

theorem carries_given (v : α) : Carries f g (givenPart f v) [] :=
  (Nat.zero_add _).trans (g.carried_eq_zero f (fun _ => rfl) fun _ => rfl)

theorem Dequeue.carries {p : Dequeue α D}
    (ht : Staged.Tracks n b g fun x => (p.part Q f + m) (.hold x)) (hk : p.Knows Q g) :
    Carries f g (p.part Q f) (p.hand? b).toList := by
  rcases p with ⟨k, d⟩ | _ | d | ⟨_ | (d | _ | d) | r | w | _⟩
  case spin => exact carries_pop ht hk
  case drain => exact carries_pop ht hk
  case sleep.recheck.first => exact carries_pop ht hk
  case sleep.recheck.last => exact carries_pop ht hk
  case sleep.retract => exact carries_answer r
  all_goals exact carries_zero

theorem carries_thread {t : Caller α E D}
    (ht : Staged.Tracks n b g fun x => (part Q f t + m) (.hold x)) (hk : Knows Q n g t) :
    Carries f g (part Q f t) ((returned? t).toList ++ (hand? b t).toList) := by
  rcases t with ⟨c, p⟩ | ⟨c, r⟩
  · rcases c with v | _ | _ | _ <;> rcases p with p | p | p | p <;> try exact hk.elim
    · rcases p with w | e | x
      · exact carries_zero
      · exact carries_push e
      · exact carries_given v
    · exact Dequeue.carries ht hk
    · rcases p with d | _
      · exact carries_pop ht hk
      · exact carries_zero
    · exact carries_zero
  · rcases r with r | r | _
    · rcases c with v | _ | _ | _
      · cases r with
        | ok _ => exact carries_given v
        | error _ => exact carries_zero
      all_goals exact carries_zero
    · have h := carries_answer (f := f) (g := g) r
      cases r <;> cases c <;> exact h
    · cases c <;> exact carries_zero

theorem toList_append_filterMap {X Y : Type} (F : X → Option Y) (x : X) (xs : List X) :
    (x :: xs).filterMap F = (F x).toList ++ xs.filterMap F := by
  cases h : F x <;> simp [h]

theorem given_sum {ts : List (Caller α E D)} (h : ∀ t ∈ ts, Outside t) :
    ((ts : Multiset (Caller α E D)).map (part Q f)).sum .given =
      (ts.filterMap accepted?).countP f := by
  induction ts with
  | nil => rfl
  | cons t ts ih =>
    rw [← Multiset.cons_coe, Multiset.map_cons, Multiset.sum_cons, Pi.add_apply,
      given_eq (h t List.mem_cons_self), ih fun u hu => h u (List.mem_cons_of_mem t hu),
      toList_append_filterMap, List.countP_append]

theorem carries_sum {ts : List (Caller α E D)}
    (h : ∀ t ∈ ts, Carries f g (part Q f t) ((returned? t).toList ++ (hand? b t).toList)) :
    Carries f g ((ts : Multiset (Caller α E D)).map (part Q f)).sum
      (ts.filterMap returned? ++ ts.filterMap (hand? b)) := by
  induction ts with
  | nil => exact carries_zero
  | cons t ts ih =>
    have hadd := (h t List.mem_cons_self).add (ih fun u hu => h u (List.mem_cons_of_mem t hu))
    rw [← Multiset.cons_coe, Multiset.map_cons, Multiset.sum_cons, toList_append_filterMap,
      toList_append_filterMap]
    refine Eq.trans hadd ?_
    simp only [List.countP_append]
    omega

theorem Kept.carries (hk : Kept lucid n f g₀ turns log g k.state k.threads)
    (hknows : ∀ t ∈ k.threads, Knows Q n g t) :
    Carries f g ((k.threads : Multiset (Caller α E D)).map (part Q f)).sum
      (returned k ++ inHand k) := by
  refine carries_sum fun t ht => ?_
  obtain ⟨m, hm⟩ := Multiset.exists_cons_of_mem (Multiset.mem_coe.2 ht)
  have htracks := hk.balanced.stored.tracks
  rw [hm, Multiset.map_cons, Multiset.sum_cons] at htracks
  exact carries_thread htracks (hknows t ht)

theorem Kept.countP_accepted (hk : Kept lucid n f .start turns log g k.state k.threads)
    (hknows : ∀ t ∈ k.threads, Knows Q n g t) (hout : ∀ t ∈ k.threads, Outside t)
    (hf : g.front = g.values.length) :
    (accepted k).countP f = (returned k ++ inHand k).countP f := by
  have hs := hk.balanced.stored
  have ho := Staged.orderly hs.tracks
  have hgiven := hs.ledger
  rw [Ghost.stock_start, Nat.zero_add, given_sum hout,
    ho.stock_eq_carried (ho.ready_eq_zero_of_front hf)] at hgiven
  exact hgiven.trans (hk.carries hknows)

theorem unpublished_of_outside {t : Caller α E D} (ht : Outside t) (p : Nat) :
    part Q f t (.hold (.claimed, p)) = 0 ∧ part Q f t (.hold (.written, p)) = 0 := by
  by_cases hr : ∃ v p, t = .running (.enqueue v) (.enqueue p)
  · obtain ⟨v, w | e | x, rfl⟩ := hr
    · exact ⟨rfl, rfl⟩
    · exact ht.elim
    · exact ht.elim
  · refine part_unpublished ?_ p
    rcases t with ⟨v | _ | _ | _, q⟩ | ⟨c, r⟩
    · rcases q with q | q | q | q
      · exact absurd ⟨v, q, rfl⟩ hr
      all_goals exact ht.elim
    all_goals rfl

theorem alone_of_outside {m : Multiset (Caller α E D)} (h : ∀ t ∈ m, Outside t) :
    Alone (m.map (part Q f)).sum := fun p =>
  ⟨sum_eq_zero fun t ht => (unpublished_of_outside (h t ht) p).1,
    sum_eq_zero fun t ht => (unpublished_of_outside (h t ht) p).2⟩

theorem Kept.front_eq {q : Blocking Q} {m : Multiset (Caller α E D)}
    (hk : Kept lucid n f g₀ turns log g q m) (hout : ∀ t ∈ m, Outside t) (hr : g.ready = 0) :
    g.front = g.values.length :=
  have halone := alone_of_outside (f := f) hout
  (Staged.orderly hk.balanced.stored.tracks).front_eq (fun p => (halone p).1)
    (fun p => (halone p).2) hr

theorem perm_of_countP {vs ws : List α} (h : ∀ f : α → Bool, vs.countP f = ws.countP f) :
    vs.Perm ws := by
  classical exact List.perm_iff_count.2 fun v => h fun w => w == v

end

end WorkStealing.Blocking
