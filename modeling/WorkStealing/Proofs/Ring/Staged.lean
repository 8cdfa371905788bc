import WorkStealing.Proofs.Queue.Staged
import WorkStealing.Proofs.Ring.Stock
import Mathlib.Algebra.BigOperators.Ring.Finset
import Mathlib.Data.Nat.Count

namespace WorkStealing.Ring

variable {α : Type}

def ready (r : Ring α) : Nat :=
  Nat.count (fun i => (r.slot? (r.front + .ofNat i)).any fun s => s.tag == r.front + .ofNat i + 1)
    (r.back - r.front).toNat

def Pop.takes : Pop α → Bool
  | .look | .inspect _ | .claim _ => false
  | .read _ | .release _ _ => true

variable {r : Ring α} {n : Nat} {g h : Ghost α} {m : Hold → Nat} {v : α}

theorem Tracks.orderly (ht : Tracks r n g m) : g.Orderly m := ⟨ht.claimed_iff, ht.taken_iff, ht.held⟩

theorem count_eq_sum (p : Nat → Prop) [DecidablePred p] (k : Nat) :
    Nat.count p k = ∑ i ∈ Finset.range k, if p i then 1 else 0 := by
  rw [Nat.count_eq_card_filter_range, Finset.card_filter]

theorem Tracks.tag_iff (ht : Tracks r n g m) {p : Nat} (hp : p < g.values.length)
    (hf : g.front ≤ p) :
    ((r.slot? (.ofNat p)).any fun s => s.tag == .ofNat p + 1) ↔ g.stage p = .published := by
  have h0 := (ht.claimed_iff p).1 hp
  have h3 : ¬ 3 < (g.stage p).rank := fun h => by
    have := (ht.taken_iff p).2 h
    omega
  have hne : UInt64.ofNat p ≠ .ofNat p + 1 := by
    intro he
    have := turn_succ (.ofNat p)
    rw [← he, turn, if_pos rfl] at this
    exact absurd this (by decide)
  have hrel : g.stage p ≠ .released := fun hr => h3 (by rw [hr]; decide)
  rw [ht.slot p (ht.current_of_rank h0 hrel), Ghost.slot]
  revert h0 h3
  cases g.stage p <;> simp [Stage.rank, hne]

theorem Tracks.ready_eq (ht : Tracks r n g m) : r.ready = g.ready := by
  have hle := ht.front_le
  have hshort := ht.short
  have hlen : (r.back - r.front).toNat = g.values.length - g.front := by
    rw [UInt64.toNat_sub_of_le _ _ (by rw [UInt64.le_iff_toNat_le, ht.front_toNat, ht.back_toNat]; omega),
      ht.back_toNat, ht.front_toNat]
  rw [ready, hlen, count_eq_sum, ht.orderly.ready_eq_sum]
  refine Finset.sum_congr rfl fun i hi => ?_
  have hi := Finset.mem_range.1 hi
  have htag := ht.tag_iff (p := g.front + i) (by omega) (by omega)
  rw [UInt64.ofNat_add, ← ht.front] at htag
  simp only [htag, Stage.waiting]

theorem Push.claims_toNat (e : Push α) : (decide (e.claims = 1)).toNat = e.claims := by
  cases e <;> rfl

theorem Push.Step.outcome {e : Push α} {a : Move (Ring α) (Push α) (Except α UInt64)}
    (ht : Tracks r n g m) (hs : e.Step r g v a h) :
    Queue.PushStep (fun e : Push α => decide (e.claims = 1)) g v e
      (a.embed id id fun r x => .done r (x.map fun _ => ())) h := by
  cases a with
  | go t e' =>
    refine .go ?_ ?_ (fun f => hs.stock_go ht.lt_of_stage) ?_
    · rw [claims_toNat, claims_toNat]
      exact hs.length_go
    · cases hs with
      | seek he hf => rfl
      | claim hp => exact g.ready_claim v
      | write hs =>
        have := g.ready_setStage .written (ht.lt_of_stage _ (by rw [hs]; decide))
        simpa [hs, Stage.waiting] using this
    · intro hc
      cases hs with
      | seek he hf => exact hc
      | claim hp => exact hc.claim v ht.stage_back
      | write hs => exact hc.setStage (by decide) (by rw [hs]; decide)
  | done t x =>
    cases x with
    | error w =>
      obtain ⟨he, rfl⟩ := hs.claims_error
      cases hs
      exact .error (by simp [he])
    | ok pos =>
      refine .ok ?_ ?_ (fun f => hs.stock_ok ht.lt_of_stage)
      · rw [claims_toNat, hs.claims_ok]
        cases hs
        rfl
      · cases hs with
        | publish hs hv =>
          have := g.ready_setStage .published (ht.lt_of_stage _ (by rw [hs]; decide))
          simpa [hs, Stage.waiting] using this

theorem Pop.Step.outcome {d : Pop α} {a : Move (Ring α) (Pop α) (Option (UInt64 × α))}
    (ht : Tracks r n g m) (hs : d.Step r g a h) :
    Queue.PopStep Pop.takes g d (a.embed id id fun r x => .done r (x.map Prod.snd)) h := by
  cases a with
  | go t d' =>
    refine .go hs.length ?_ ?_ (fun f => hs.stock_go ht.lt_of_stage) ?_
    · cases hs with
      | seek hd he => cases d <;> simp [Unclaimed] at hd <;> cases d' <;> simp_all [Unclaimed, takes]
      | claim hp hs =>
        have := g.ready_setStage .taken (ht.lt_of_stage _ (by rw [hs]; decide))
        rw [hs] at this
        exact this
      | read hs hv =>
        have := g.ready_setStage .read (ht.lt_of_stage _ (by rw [hs]; decide))
        simpa [hs, Stage.waiting, takes] using this
    · cases hs with
      | seek hd he => cases d <;> simp [Unclaimed] at hd <;> simp [takes]
      | claim hp hs => exact fun _ => rfl
      | read hs hv => exact fun _ => rfl
    · intro hc
      cases hs with
      | seek hd he => exact hc
      | claim hp hs => exact hc.take hs
      | read hs hv => exact hc.setStage (by decide) (by rw [hs]; decide)
  | done t x =>
    cases x with
    | none =>
      obtain ⟨rfl, hlt⟩ := hs.eq_of_none
      refine .none ?_ (ht.orderly.ready_eq_zero hlt)
      cases hs
      rfl
    | some y =>
      obtain ⟨pos, w⟩ := y
      refine .some hs.length ?_ (fun f => hs.stock_some ht.lt_of_stage) ?_
      · cases hs with
        | release hs hv =>
          have := g.ready_setStage .released (ht.lt_of_stage _ (by rw [hs]; decide))
          simpa [hs, Stage.waiting, takes] using this
      · intro hc
        cases hs with
        | release hs hv => exact hc.setStage (by decide) (by rw [hs]; decide)

theorem Shaped.exists_slot (hs : r.Shaped n) (pos : UInt64) : ∃ s, r.slot? pos = some s :=
  ⟨_, Array.getElem?_eq_getElem (hs.size ▸ hs.place_lt pos)⟩

theorem Push.shaped {e : Push α} {a : Move (Ring α) (Push α) (Except α UInt64)}
    (hs : r.Shaped n) (ha : a ∈ e.moves r) : a.state.Shaped n := by
  cases e with
  | look v =>
    obtain rfl := List.mem_singleton.1 ha
    exact hs
  | inspect v pos =>
    simp only [moves] at ha
    split at ha
    · cases ha
    · split at ha <;>
      · obtain rfl := List.mem_singleton.1 ha
        exact hs
  | claim v pos =>
    simp only [moves] at ha
    split at ha
    · rcases List.mem_pair.1 ha with rfl | rfl
      · exact hs.congr rfl rfl rfl
      · exact hs
    · obtain rfl := List.mem_singleton.1 ha
      exact hs
  | write v pos =>
    obtain rfl := List.mem_singleton.1 ha
    exact hs.setCell pos (some v)
  | publish pos =>
    obtain rfl := List.mem_singleton.1 ha
    exact hs.setTag pos (pos + 1)

theorem Pop.shaped {d : Pop α} {a : Move (Ring α) (Pop α) (Option (UInt64 × α))}
    (hs : r.Shaped n) (ha : a ∈ d.moves r) : a.state.Shaped n := by
  cases d with
  | look =>
    obtain rfl := List.mem_singleton.1 ha
    exact hs
  | inspect pos =>
    simp only [moves] at ha
    split at ha
    · cases ha
    · split at ha <;>
      · obtain rfl := List.mem_singleton.1 ha
        exact hs
  | claim pos =>
    simp only [moves] at ha
    split at ha
    · rcases List.mem_pair.1 ha with rfl | rfl
      · exact hs.congr rfl rfl rfl
      · exact hs
    · obtain rfl := List.mem_singleton.1 ha
      exact hs
  | read pos =>
    simp only [moves] at ha
    split at ha
    · cases ha
    · obtain rfl := List.mem_singleton.1 ha
      exact hs.setCell pos none
  | release pos v =>
    obtain rfl := List.mem_singleton.1 ha
    exact hs.setTag pos _

theorem Push.moves_ne_nil (hs : r.Shaped n) (e : Push α) : e.moves r ≠ [] := by
  cases e with
  | inspect w pos =>
    obtain ⟨s, hs⟩ := hs.exists_slot pos
    simp only [moves, hs]
    split <;> simp
  | claim w pos =>
    simp only [moves]
    split <;> simp
  | look w => simp [moves]
  | write w pos => simp [moves]
  | publish pos => simp [moves]

theorem Tracks.slot_of_taken {pos : UInt64} (ht : Tracks r n g m)
    (hs : g.stage pos.toNat = .taken) : r.slot? pos = some ⟨pos + 1, g.values[pos.toNat]?⟩ := by
  have hslot := ht.slot pos.toNat (ht.current_of_rank (by simp [hs, Stage.rank]) (by simp [hs]))
  rwa [UInt64.ofNat_toNat, Ghost.slot, hs, UInt64.ofNat_toNat] at hslot

theorem Pop.moves_ne_nil {d : Pop α} (ht : Tracks r n g (d.share + m)) : d.moves r ≠ [] := by
  cases d with
  | inspect pos =>
    obtain ⟨s, hs⟩ := ht.shaped.exists_slot pos
    simp only [moves, hs]
    split <;> simp
  | claim pos =>
    simp only [moves]
    split <;> simp
  | read pos =>
    have hst : g.stage pos.toNat = .taken := ht.held.stage_eq (by decide)
    have hlt := ht.lt_of_stage pos.toNat (by rw [hst]; decide)
    simp [moves, ht.slot_of_taken hst, hlt]
  | look => simp [moves]
  | release pos w => simp [moves]

theorem Push.share_eq (e : Push α) (p : Nat) :
    e.share (.taken, p) = 0 ∧ e.share (.read, p) = 0 := by
  cases e <;> simp [share, holding_apply]

theorem Pop.share_eq (d : Pop α) (p : Nat) :
    d.share (.claimed, p) = 0 ∧ d.share (.written, p) = 0 := by
  cases d <;> simp [share, holding_apply]

def Pop.hand (r : Ring α) : Pop α → Option α
  | .look | .inspect _ | .claim _ => none
  | .read pos => (r.slot? pos).bind Slot.cell
  | .release _ v => some v

def Pop.lag (p : Nat) : Pop α → Nat
  | .look => 2
  | .inspect pos => if pos.toNat = p then 1 else 3
  | .claim _ => 2
  | .read _ | .release _ _ => 0

theorem Pop.hand_eq {d : Pop α} (f : α → Bool) (ht : Tracks r n g (d.share + m)) (hk : d.Knows g) :
    g.carried f d.share = (d.hand r).toList.countP f := by
  cases d with
  | look => exact g.carried_eq_zero f (fun _ => rfl) fun _ => rfl
  | inspect pos => exact g.carried_eq_zero f (fun _ => rfl) fun _ => rfl
  | claim pos => exact g.carried_eq_zero f (fun _ => rfl) fun _ => rfl
  | read pos =>
    have hst : g.stage pos.toNat = .taken := ht.held.stage_eq (by decide)
    have hv := List.getElem?_eq_getElem (ht.lt_of_stage pos.toNat (by rw [hst]; decide))
    rw [share, g.carried_holding f (.inl rfl) hv, hand, ht.slot_of_taken hst, Option.bind_some, hv]
    rfl
  | release pos v => exact g.carried_holding f (.inr rfl) hk

theorem turn_behind {t : Nat} {awaited : UInt64} (ht : t < awaited.toNat)
    (hle : awaited.toNat ≤ t + 2 ^ 63) : turn (.ofNat t) awaited = .behind := by
  have hlt := awaited.toNat_lt
  have h64 := toNat_ofNat (by omega : t < 2 ^ 64)
  have hsub : (UInt64.ofNat t - awaited).toNat = 2 ^ 64 - awaited.toNat + t := by
    rw [UInt64.toNat_sub, h64, Nat.mod_eq_of_lt (by omega)]
  have hne : UInt64.ofNat t ≠ awaited := fun he => by rw [he] at h64; omega
  have hahead : ¬ UInt64.ofNat t - awaited < 0x8000000000000000 := by
    rw [UInt64.lt_iff_toNat_lt, hsub]
    simp
    omega
  rw [turn, if_neg hne, if_neg hahead]

theorem Tracks.behind_of_front (ht : Tracks r n g m) {pos : UInt64} {s : Slot α}
    (hs : r.slot? pos = some s) (hf : g.front = g.values.length) (hp : pos.toNat = g.front) :
    turn s.tag (pos + 1) = .behind := by
  have h2 := ht.shaped.two_le
  have hshort := ht.short
  have hsucc := toNat_succ (by omega : pos.toNat < 2 ^ 63)
  have hfree : g.stage pos.toNat = .free := hp ▸ hf ▸ ht.stage_back
  by_cases hc : n ≤ pos.toNat → g.stage (pos.toNat - n) = .released
  · rw [ht.slot?_of_mod ⟨by rw [hfree]; decide, hc⟩ rfl, Option.some.injEq] at hs
    rw [← hs, Ghost.slot, hfree]
    exact turn_behind (by omega) (by omega)
  · obtain ⟨hn, hr⟩ := Classical.not_imp.1 hc
    rw [ht.slot?_of_mod ⟨hr, ht.reused _ (by omega)⟩ (Nat.mod_eq_sub_mod hn).symm,
      Option.some.injEq] at hs
    rcases g.slot_tag (pos.toNat - n) with e | e <;> rw [hs] at e <;> rw [e] <;>
      exact turn_behind (by omega) (by omega)

theorem Pop.lag_step {d e : Pop α} {t : Ring α} (ht : Tracks r n g m) (hk : d.Knows g)
    (hf : g.front = g.values.length) (hd : d.takes = false) (he : e.takes = false)
    (ha : .go t e ∈ d.moves r) : e.lag g.front < d.lag g.front := by
  have hfront := ht.front_toNat
  cases d with
  | look =>
    obtain ⟨rfl, rfl⟩ : t = r ∧ e = .inspect r.front := by simpa [moves] using ha
    simp [lag, hfront]
  | inspect pos =>
    obtain ⟨s, hs⟩ := ht.shaped.exists_slot pos
    by_cases hp : pos.toNat = g.front
    · simp [moves, hs, ht.behind_of_front hs hf hp] at ha
    · simp only [moves, hs] at ha
      rw [lag, if_neg hp]
      split at ha
      · obtain ⟨-, rfl⟩ : t = r ∧ e = .claim pos := by simpa using ha
        exact Nat.lt_succ_self 2
      · simp at ha
      · obtain ⟨-, rfl⟩ : t = r ∧ e = .look := by simpa using ha
        exact Nat.lt_succ_self 2
  | claim pos =>
    simp only [moves] at ha
    split at ha
    · rcases List.mem_cons.1 ha with h | h
      · obtain ⟨-, rfl⟩ : _ ∧ e = .read pos := by simpa using h
        exact absurd he (by simp [takes])
      · obtain ⟨-, rfl⟩ : t = r ∧ e = .inspect r.front := by simpa using h
        simp [lag, hfront]
    · obtain ⟨-, rfl⟩ : t = r ∧ e = .inspect r.front := by simpa using ha
      simp [lag, hfront]
  | read pos => exact absurd hd (by simp [takes])
  | release pos v => exact absurd hd (by simp [takes])

instance : Queue.Staged (Ring α) α (Push α) (Pop α) where
  Tracks n r g m := r.Tracks n g m
  Pushing n g v e := e.Knows n g v
  Popping g d := d.Knows g
  pushHold := Push.share
  popHold := Pop.share
  claims e := decide (e.claims = 1)
  takes := Pop.takes
  Wraps := True
  ready := ready
  hand r d := d.hand r
  lag := Pop.lag
  orderly := Tracks.orderly
  ready_eq := Tracks.ready_eq
  pushHold_eq := Push.share_eq
  popHold_eq := Pop.share_eq
  hand_eq f ht hk := Pop.hand_eq f ht hk
  lag_enter _ := (by decide : 2 ≤ Queue.pace)
  lag_pos p d hd := by
    cases d with
    | inspect pos => simp only [Pop.lag]; split <;> decide
    | look => exact Nat.two_pos
    | claim pos => exact Nat.two_pos
    | read pos => exact absurd hd (by simp [Pop.takes])
    | release pos v => exact absurd hd (by simp [Pop.takes])
  lag_step {n r t g m d e} ht hk hf hd he ha := by
    obtain ⟨c, hc, heq⟩ := List.mem_map.1 ha
    obtain rfl := Move.embed_eq_go.1 heq
    exact Pop.lag_step ht hk hf hd he hc
  push_enter _ _ _ := ⟨rfl, rfl, rfl⟩
  pop_enter _ := ⟨trivial, rfl, rfl⟩
  push_mono := Push.Knows.mono
  pop_mono := Pop.Knows.mono
  push_step {n r g m v e a} ht hk ha hb := by
    obtain ⟨c, hc, rfl⟩ := List.mem_map.1 ha
    have hbound : ∀ t w pos, c = .go t (.write w pos) → g.values.length + 1 < 2 ^ 63 := by
      rintro t w pos rfl
      obtain rfl := Push.claim_of_write hc
      exact hb trivial rfl
    obtain ⟨h, hs, hle, ht', hk'⟩ := Push.step ht hk hc hbound
    refine ⟨h, hs.outcome ht, hle, ?_, fun t e' he => hk' t e' (Move.embed_eq_go.1 he)⟩
    cases c <;> exact ht'
  pop_step {n r g m d a} ht hk ha := by
    obtain ⟨c, hc, rfl⟩ := List.mem_map.1 ha
    obtain ⟨h, hs, hle, ht', hk'⟩ := Pop.step ht hk hc
    refine ⟨h, hs.outcome ht, hle, ?_, fun t d' he => hk' t d' (Move.embed_eq_go.1 he)⟩
    cases c <;> exact ht'
  push_moves_ne_nil ht _ h := Push.moves_ne_nil ht.shaped _ (List.map_eq_nil_iff.1 h)
  pop_moves_ne_nil ht _ h := Pop.moves_ne_nil ht (List.map_eq_nil_iff.1 h)

end WorkStealing.Ring
