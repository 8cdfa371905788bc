import WorkStealing.Proofs.Ring.Step

namespace WorkStealing.Ring

variable {α : Type}

def Push.claims : Push α → Nat
  | .look _ | .inspect _ _ | .claim _ _ => 0
  | .write _ _ | .publish _ => 1

def Push.claiming : Push α → Nat
  | .write _ _ => 1
  | _ => 0

variable {r : Ring α} {g h : Ghost α} {v : α} {f : α → Bool}

theorem Tracks.lt_of_stage {n : Nat} {m : Hold → Nat} (h : Tracks r n g m) (p : Nat)
    (hp : g.stage p ≠ .free) : p < g.values.length := (h.claimed_iff p).2 (Stage.rank_pos hp)

theorem isEmpty_of_eq (h : r.front = r.back) : r.isEmpty := by
  have hmin : min 0 r.capacity = 0 := if_pos (UInt64.le_iff_toNat_le.2 (Nat.zero_le _))
  simp [isEmpty, length, h, hmin]

theorem length_toNat (h : r.front.toNat ≤ r.back.toNat) :
    r.length.toNat = min (r.back.toNat - r.front.toNat) r.capacity.toNat := by
  have hsub : (r.back - r.front).toNat = r.back.toNat - r.front.toNat :=
    UInt64.toNat_sub_of_le _ _ (UInt64.le_iff_toNat_le.2 h)
  have hnot : ¬ r.back < r.front := by
    rw [UInt64.lt_iff_toNat_lt]
    omega
  rw [length, if_neg hnot, ← hsub]
  change (if _ ≤ _ then _ else _ : UInt64).toNat = _
  split
  · rename_i h
    exact (Nat.min_eq_left (UInt64.le_iff_toNat_le.1 h)).symm
  · rename_i h
    have hlt := UInt64.lt_iff_toNat_lt.1 (UInt64.not_le.1 h)
    exact (Nat.min_eq_right (Nat.le_of_lt hlt)).symm

theorem Tracks.length_toNat {n : Nat} {m : Hold → Nat} (ht : Tracks r n g m) :
    r.length.toNat = min (g.values.length - g.front) n := by
  have hshort := ht.short
  have hle := ht.front_le
  have hback : r.back.toNat = g.values.length := by rw [ht.back, toNat_ofNat (by omega)]
  have hfront : r.front.toNat = g.front := by rw [ht.front, toNat_ofNat (by omega)]
  rw [Ring.length_toNat (by omega), hback, hfront, ht.shaped.capacity]

theorem Tracks.front_of_isEmpty {n : Nat} {m : Hold → Nat} (ht : Tracks r n g m)
    (h : r.isEmpty) : g.front = g.values.length := by
  have hlength : r.length.toNat = 0 := by rw [eq_of_beq h]; rfl
  have h2 := ht.shaped.two_le
  have hle := ht.front_le
  rw [ht.length_toNat] at hlength
  omega

theorem turn_succ (pos : UInt64) : turn pos (pos + 1) = .behind := by
  have hsub : pos - (pos + 1) = 0xFFFFFFFFFFFFFFFF := by grind
  have hne : pos ≠ pos + 1 := by
    intro h
    rw [← h] at hsub
    simp at hsub
  rw [turn, if_neg hne, if_neg]
  rw [hsub]
  decide

theorem Tracks.items_eq_nil {n : Nat} (ht : Tracks r n g 0)
    (hr : ∀ p < g.values.length, g.stage p = .released) (hf : g.front = g.values.length) :
    Holding.items r = [] := by
  have h2 := ht.shaped.two_le
  have hc : g.Current n g.values.length :=
    ⟨by rw [ht.stage_back]; decide, fun hn => hr _ (by omega)⟩
  have hslot := ht.slot _ hc
  rw [Ghost.slot, ht.stage_back, ← hf, ← ht.front] at hslot
  have hpop : Queue.dequeue r = some (r, none) := by
    simp [Queue.dequeue, Machine.run, Queue.pace, Machine.runFrom, Queue.pop, pop,
      Machine.mapResult, Pop.moves, hslot, turn_succ, Move.embed]
  cases hcap : r.capacity.toNat with
  | zero => simp [Holding.items, hcap, Queue.drain_zero]
  | succ m => simp [Holding.items, hcap, Queue.drain_succ, hpop]

theorem Push.Unclaimed.claims {e : Push α} (he : e.Unclaimed) : e.claims = 0 := by
  cases e <;> simp [Unclaimed] at he <;> rfl

theorem Push.Step.front {e : Push α} {a : Move (Ring α) (Push α) (Except α UInt64)}
    (hs : e.Step r g v a h) : h.front = g.front := by
  cases hs <;> rfl

theorem Push.Step.length_go {e e' : Push α} {t : Ring α} (hs : e.Step r g v (.go t e') h) :
    h.values.length + e.claims = g.values.length + e'.claims := by
  cases hs with
  | seek he hf => rw [he.claims, hf.claims]
  | claim hp => simp [Ghost.claim, Push.claims]
  | write hs => rfl

theorem Push.Step.length_claiming {e e' : Push α} {t : Ring α} (hs : e.Step r g v (.go t e') h) :
    h.values.length = g.values.length + e'.claiming := by
  cases hs with
  | seek he hf => cases e' <;> simp [Unclaimed] at hf <;> rfl
  | claim hp => simp [Ghost.claim, Push.claiming]
  | write hs => rfl

theorem Push.Step.length_done {e : Push α} {t : Ring α} {x : Except α UInt64}
    (hs : e.Step r g v (.done t x) h) : h.values.length = g.values.length := by
  cases hs <;> rfl

theorem Push.Step.claims_ok {e : Push α} {t : Ring α} {pos : UInt64}
    (hs : e.Step r g v (.done t (.ok pos)) h) : e.claims = 1 := by
  cases hs
  rfl

theorem Push.Step.claims_error {e : Push α} {t : Ring α} {w : α}
    (hs : e.Step r g v (.done t (.error w)) h) : e.claims = 0 ∧ w = v := by
  cases hs with
  | refuse he => exact ⟨he.claims, rfl⟩

theorem Push.Step.stock_go {e e' : Push α} {t : Ring α} (hs : e.Step r g v (.go t e') h)
    (hlt : ∀ p, g.stage p ≠ .free → p < g.values.length) : h.stock f = g.stock f := by
  cases hs with
  | seek he hf => rfl
  | claim hp => exact g.stock_claim f v
  | write hs =>
    have := g.stock_setStage f .written (hlt _ (by rw [hs]; decide))
    simpa [hs, Stage.stocked, Stage.InStock, Stage.rank] using this

theorem Push.Step.stock_ok {e : Push α} {t : Ring α} {pos : UInt64}
    (hs : e.Step r g v (.done t (.ok pos)) h) (hlt : ∀ p, g.stage p ≠ .free → p < g.values.length) :
    h.stock f = g.stock f + (f v).toNat := by
  cases hs with
  | publish hs hv =>
    have := g.stock_setStage f .published (hlt _ (by rw [hs]; decide))
    cases hf : f v <;> simpa [hs, hv, hf, Stage.stocked, Stage.InStock, Stage.rank] using this

theorem Push.Step.stock_error {e : Push α} {t : Ring α} {w : α}
    (hs : e.Step r g v (.done t (.error w)) h) : h.stock f = g.stock f := by
  cases hs
  rfl

theorem Pop.Step.front_le {d : Pop α} {a : Move (Ring α) (Pop α) (Option (UInt64 × α))}
    (hs : d.Step r g a h) : g.front ≤ h.front := by
  cases hs <;> simp [Ghost.take]

theorem Pop.Step.length {d : Pop α} {a : Move (Ring α) (Pop α) (Option (UInt64 × α))}
    (hs : d.Step r g a h) : h.values.length = g.values.length := by
  cases hs <;> rfl

theorem Pop.Step.stock_go {d d' : Pop α} {t : Ring α} (hs : d.Step r g (.go t d') h)
    (hlt : ∀ p, g.stage p ≠ .free → p < g.values.length) : h.stock f = g.stock f := by
  cases hs with
  | seek hd he => rfl
  | claim hp hs =>
    have := g.stock_setStage f .taken (hlt g.front (by rw [hs]; decide))
    change (g.setStage g.front .taken).stock f = _
    simpa [hs, Stage.stocked, Stage.InStock, Stage.rank] using this
  | read hs hv =>
    have := g.stock_setStage f .read (hlt _ (by rw [hs]; decide))
    simpa [hs, Stage.stocked, Stage.InStock, Stage.rank] using this

theorem Pop.Step.stock_some {d : Pop α} {t : Ring α} {pos : UInt64}
    (hs : d.Step r g (.done t (some (pos, v))) h)
    (hlt : ∀ p, g.stage p ≠ .free → p < g.values.length) :
    h.stock f + (f v).toNat = g.stock f := by
  cases hs with
  | release hs hv =>
    have := g.stock_setStage f .released (hlt _ (by rw [hs]; decide))
    cases hf : f v <;> simpa [hs, hv, hf, Stage.stocked, Stage.InStock, Stage.rank] using this

theorem Pop.Step.eq_of_none {d : Pop α} {t : Ring α} (hs : d.Step r g (.done t none) h) :
    h = g ∧ (g.stage g.front).rank < 3 := by
  cases hs with
  | miss hr => exact ⟨rfl, hr⟩

end WorkStealing.Ring
