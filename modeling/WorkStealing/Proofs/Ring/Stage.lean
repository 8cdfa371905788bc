import WorkStealing.Proofs.Queue.Ghost
import WorkStealing.Ring.Access
import WorkStealing.Proofs.Ring.Place
import Mathlib.Data.Int.ModEq

namespace WorkStealing

variable {α : Type}

namespace Ghost

/-- What the slot of a position holds while it is the position's turn. -/
def slot (g : Ghost α) (p : Nat) : Ring.Slot α :=
  match g.stage p with
  | .free | .claimed => ⟨.ofNat p, none⟩
  | .written => ⟨.ofNat p, g.values[p]?⟩
  | .published | .taken => ⟨.ofNat p + 1, g.values[p]?⟩
  | .read | .released => ⟨.ofNat p + 1, none⟩

theorem slot_tag (g : Ghost α) (p : Nat) :
    (g.slot p).tag = .ofNat p ∨ (g.slot p).tag = .ofNat (p + 1) := by
  simp only [slot, UInt64.ofNat_add, UInt64.ofNat_one]
  split <;> simp

def Current (g : Ghost α) (n p : Nat) : Prop :=
  g.stage p ≠ .released ∧ (n ≤ p → g.stage (p - n) = .released)

end Ghost

namespace Ring

def Push.share : Push α → Hold → Nat
  | .write _ pos => holding .claimed pos.toNat
  | .publish pos => holding .written pos.toNat
  | _ => 0

def Pop.share : Pop α → Hold → Nat
  | .read pos => holding .taken pos.toNat
  | .release pos _ => holding .read pos.toNat
  | _ => 0

/-- A ring of `n` slots that has come as far as the ghost tells, with calls in progress that hold
`m`. -/
structure Tracks (r : Ring α) (n : Nat) (g : Ghost α) (m : Hold → Nat) : Prop where
  shaped : r.Shaped n
  back : r.back = .ofNat g.values.length
  front : r.front = .ofNat g.front
  short : g.values.length < 2 ^ 63
  claimed_iff : ∀ p, p < g.values.length ↔ 0 < (g.stage p).rank
  taken_iff : ∀ p, p < g.front ↔ 3 < (g.stage p).rank
  reused : ∀ p, p < g.values.length → n ≤ p → g.stage (p - n) = .released
  held : g.Held m
  slot : ∀ p, g.Current n p → r.slot? (.ofNat p) = some (g.slot p)

theorem toNat_ofNat {p : Nat} (h : p < 2 ^ 64) : (UInt64.ofNat p).toNat = p := by
  rw [UInt64.toNat_ofNat', Nat.mod_eq_of_lt h]

theorem tracks_start {capacity : UInt64} {slotSize : Option UInt64} {r : Ring α}
    (h : Ring.new capacity slotSize = .ok r) : Tracks r capacity.toNat .start 0 := by
  obtain ⟨hs, hb, hf, hslot⟩ := new_ok h
  refine ⟨hs, hb, hf, by simp [Ghost.start], by simp [Ghost.start, Stage.rank],
    by simp [Ghost.start, Stage.rank], by simp [Ghost.start], ?_, ?_⟩
  · intro s p hb
    have : Stage.free ≠ s := by rintro rfl; simp [Stage.Busy] at hb
    simp [Ghost.start, this]
  · intro p hc
    have hp : p < capacity.toNat := by
      by_contra hn
      exact absurd (hc.2 (by omega)) (by simp [Ghost.start])
    exact hslot p hp

namespace Tracks

variable {r : Ring α} {n : Nat} {g : Ghost α} {m : Hold → Nat}

theorem front_le (h : Tracks r n g m) : g.front ≤ g.values.length := by
  by_contra hc
  have h1 := (h.taken_iff g.values.length).1 (by omega)
  have h2 := (h.claimed_iff g.values.length).2 (by omega)
  omega

theorem stage_front (h : Tracks r n g m) : (g.stage g.front).rank ≤ 3 := by
  have := h.taken_iff g.front
  omega

theorem stage_back (h : Tracks r n g m) : g.stage g.values.length = .free := by
  apply Stage.rank_inj
  have := h.claimed_iff g.values.length
  change (g.stage g.values.length).rank = 0
  omega

theorem lt_of_current (h : Tracks r n g m) {p : Nat} (hc : g.Current n p) : p < 2 ^ 64 := by
  have := h.shaped.le
  have := h.short
  by_cases hn : n ≤ p
  · have hp : p - n < g.values.length := (h.claimed_iff _).2 (by simp [hc.2 hn, Stage.rank])
    omega
  · omega

theorem released_of_add (h : Tracks r n g m) {p : Nat} (d : Nat)
    (hp : g.stage (p + d * n) = .released) : g.stage p = .released := by
  induction d with
  | zero => simpa using hp
  | succ d ih =>
    have hlt : p + (d + 1) * n < g.values.length :=
      (h.claimed_iff _).2 (by simp [hp, Stage.rank])
    have he : p + (d + 1) * n - n = p + d * n := by rw [Nat.add_mul]; omega
    exact ih (he ▸ h.reused _ hlt (by rw [Nat.add_mul]; omega))

theorem current_inj (h : Tracks r n g m) {p q : Nat} (hp : g.Current n p) (hq : g.Current n q)
    (he : p % n = q % n) : p = q := by
  by_contra hne
  wlog hlt : p < q generalizing p q
  · exact this hq hp he.symm (Ne.symm hne) (by omega)
  obtain ⟨d, hd⟩ := (Nat.modEq_iff_dvd' (by omega)).1 he
  have hdn : d ≠ 0 := by rintro rfl; omega
  obtain ⟨d, rfl⟩ := Nat.exists_eq_succ_of_ne_zero hdn
  have he : q = p + d * n + n := by rw [Nat.mul_comm, Nat.succ_mul] at hd; omega
  have hr := hq.2 (by omega)
  rw [he, Nat.add_sub_cancel] at hr
  exact hp.1 (h.released_of_add d hr)

theorem place_ne (h : Tracks r n g m) {p q : Nat} (hp : g.Current n p) (hq : g.Current n q)
    (hne : p ≠ q) : r.place (.ofNat p) ≠ r.place (.ofNat q) := by
  rw [Ne, h.shaped.place_eq, toNat_ofNat (h.lt_of_current hp), toNat_ofNat (h.lt_of_current hq)]
  exact fun he => hne (h.current_inj hp hq he)

theorem restage {p : Nat} (h : Tracks r n g (holding (g.stage p) p + m)) (s : Stage)
    (hc : g.Current n p) (hs : s ≠ .released) (hclaim : 0 < (g.stage p).rank)
    (hrank : (g.stage p).rank ≤ s.rank) {t : Ring α} {f : Nat}
    (hsize : t.slots.size = r.slots.size) (hmask : t.mask = r.mask)
    (hshuffle : t.shuffle = r.shuffle) (hback : t.back = r.back) (hfront : t.front = .ofNat f)
    (htaken : ∀ q, q < f ↔ 3 < ((g.setStage p s).stage q).rank)
    (hslot : t.slot? (.ofNat p) = some ((g.setStage p s).slot p))
    (hother : ∀ q, r.place (.ofNat p) ≠ r.place (.ofNat q) →
      t.slot? (.ofNat q) = r.slot? (.ofNat q)) :
    Tracks t n { g.setStage p s with front := f } (holding s p + m) := by
  have hrel (q : Nat) : (g.setStage p s).stage q = .released ↔ g.stage q = .released := by
    by_cases e : q = p
    · subst e; simp [Ghost.setStage, hs, hc.1]
    · simp [Ghost.setStage, e]
  have hcur (q : Nat) : Ghost.Current { g.setStage p s with front := f } n q ↔ g.Current n q := by
    simp only [Ghost.Current, Ne, hrel]
  refine ⟨h.shaped.congr hsize hmask hshuffle, hback.trans h.back, hfront, h.short, ?_, htaken, ?_,
    h.held.setStage s, ?_⟩
  · intro q
    by_cases e : q = p
    · subst e
      have := (h.claimed_iff q).2 hclaim
      simp only [Ghost.setStage, Function.update_self, this, true_iff]
      omega
    · simpa [Ghost.setStage, e] using h.claimed_iff q
  · intro q hq hn
    exact (hrel _).2 (h.reused q hq hn)
  · intro q hq
    by_cases e : q = p
    · subst e; exact hslot
    · have hq' := (hcur q).1 hq
      rw [hother q (h.place_ne hc hq' (Ne.symm e)), h.slot q hq']
      simp [Ghost.slot, Ghost.setStage, e]

theorem current_of_rank (h : Tracks r n g m) {p : Nat} (h0 : 0 < (g.stage p).rank)
    (h6 : g.stage p ≠ .released) : g.Current n p :=
  ⟨h6, h.reused p ((h.claimed_iff p).2 h0)⟩

theorem claim (h : Tracks r n g m) (v : α)
    (hfree : n ≤ g.values.length → g.stage (g.values.length - n) = .released)
    (hb : g.values.length + 1 < 2 ^ 63) :
    Tracks { r with back := r.back + 1 } n (g.claim v)
      (holding .claimed g.values.length + m) := by
  have hstage := h.stage_back
  have hrel (q : Nat) : (g.claim v).stage q = .released ↔ g.stage q = .released := by
    by_cases e : q = g.values.length
    · simp [Ghost.claim, Ghost.setStage, e, hstage]
    · simp [Ghost.claim, Ghost.setStage, e]
  refine ⟨h.shaped.congr rfl rfl rfl, ?_, h.front, by simpa [Ghost.claim] using hb, ?_, ?_, ?_, ?_, ?_⟩
  · simp [h.back, Ghost.claim]
  · intro q
    have := h.claimed_iff q
    by_cases e : q = g.values.length
    · simp [Ghost.claim, Ghost.setStage, e, Stage.rank]
    · simp only [Ghost.claim, Ghost.setStage, List.length_append, List.length_singleton,
        Function.update_of_ne e]
      omega
  · intro q
    have := h.taken_iff q
    by_cases e : q = g.values.length
    · subst e
      simp only [hstage, Stage.rank] at this
      simp only [Ghost.claim, Ghost.setStage, Function.update_self, Stage.rank]
      omega
    · simpa [Ghost.claim, Ghost.setStage, e] using this
  · intro q hq hn
    rw [hrel]
    by_cases e : q = g.values.length
    · exact e ▸ hfree (e ▸ hn)
    · exact h.reused q (by simp [Ghost.claim] at hq; omega) hn
  · have hh : g.Held (holding (g.stage g.values.length) g.values.length + m) := by
      simpa [hstage, holding, Stage.Busy] using h.held
    exact hh.setStage .claimed
  · intro q hq
    have hq' : g.Current n q := by simpa only [Ghost.Current, Ne, hrel] using hq
    change r.slot? (.ofNat q) = _
    rw [h.slot q hq']
    by_cases e : q = g.values.length
    · simp [Ghost.slot, Ghost.claim, Ghost.setStage, e, hstage]
    · have hv (h0 : 0 < (g.stage q).rank) : (g.values ++ [v])[q]? = g.values[q]? :=
        List.getElem?_append_left ((h.claimed_iff q).2 h0)
      simp only [Ghost.slot, Ghost.claim, Ghost.setStage, Function.update_of_ne e]
      cases hst : g.stage q <;> first | rfl | rw [hv (by simp [hst, Stage.rank])]

theorem write {p : Nat} {v : α} (h : Tracks r n g (holding .claimed p + m))
    (hv : g.values[p]? = some v) :
    Tracks (r.setCell (.ofNat p) (some v)) n (g.setStage p .written) (holding .written p + m) := by
  have hst : g.stage p = .claimed := h.held.stage_eq (by decide)
  have hc : g.Current n p := h.current_of_rank (by simp [hst, Stage.rank]) (by simp [hst])
  have hslot := h.slot p hc
  rw [← hst] at h
  refine h.restage .written hc (by decide) (by simp [hst, Stage.rank]) (by simp [hst, Stage.rank])
    (by simp [Ring.setCell]) rfl rfl rfl h.front ?_ ?_ ?_
  · intro q
    have := h.taken_iff q
    by_cases e : q = p
    · subst e; simpa [Ghost.setStage, hst, Stage.rank] using this
    · simpa [Ghost.setStage, e] using this
  · simp [slot?_setCell, hslot, Ghost.slot, Ghost.setStage, hst, hv]
  · intro q hq
    simp [slot?_setCell, hq]

theorem publish {p : Nat} (h : Tracks r n g (holding .written p + m)) :
    Tracks (r.setTag (.ofNat p) (.ofNat p + 1)) n (g.setStage p .published) m := by
  have hst : g.stage p = .written := h.held.stage_eq (by decide)
  have hc : g.Current n p := h.current_of_rank (by simp [hst, Stage.rank]) (by simp [hst])
  have hslot := h.slot p hc
  rw [← hst] at h
  have hm : (holding .published p : Hold → Nat) + m = m := by simp [holding, Stage.Busy]
  rw [← hm]
  refine h.restage .published hc (by decide) (by simp [hst, Stage.rank])
    (by simp [hst, Stage.rank]) (by simp [Ring.setTag]) rfl rfl rfl h.front ?_ ?_ ?_
  · intro q
    have := h.taken_iff q
    by_cases e : q = p
    · subst e; simpa [Ghost.setStage, hst, Stage.rank] using this
    · simpa [Ghost.setStage, e] using this
  · simp [slot?_setTag, hslot, Ghost.slot, Ghost.setStage, hst]
  · intro q hq
    simp [slot?_setTag, hq]

theorem take (h : Tracks r n g m) (hst : g.stage g.front = .published) :
    Tracks { r with front := r.front + 1 } n g.take (holding .taken g.front + m) := by
  have hc : g.Current n g.front := h.current_of_rank (by simp [hst, Stage.rank]) (by simp [hst])
  have hm : (holding .published g.front : Hold → Nat) + m = m := by simp [holding, Stage.Busy]
  rw [← hm, ← hst] at h
  refine h.restage .taken hc (by decide) (by simp [hst, Stage.rank]) (by simp [hst, Stage.rank])
    rfl rfl rfl rfl (by simp [h.front]) ?_ ?_ fun _ _ => rfl
  · intro q
    have := h.taken_iff q
    by_cases e : q = g.front
    · simp [Ghost.setStage, e, Stage.rank]
    · simp only [Ghost.setStage, Function.update_of_ne e]
      omega
  · exact (h.slot _ hc).trans (by simp [Ghost.slot, Ghost.setStage, hst])

theorem read {p : Nat} (h : Tracks r n g (holding .taken p + m)) :
    Tracks (r.setCell (.ofNat p) none) n (g.setStage p .read) (holding .read p + m) := by
  have hst : g.stage p = .taken := h.held.stage_eq (by decide)
  have hc : g.Current n p := h.current_of_rank (by simp [hst, Stage.rank]) (by simp [hst])
  have hslot := h.slot p hc
  rw [← hst] at h
  refine h.restage .read hc (by decide) (by simp [hst, Stage.rank]) (by simp [hst, Stage.rank])
    (by simp [Ring.setCell]) rfl rfl rfl h.front ?_ ?_ ?_
  · intro q
    have := h.taken_iff q
    by_cases e : q = p
    · subst e; simpa [Ghost.setStage, hst, Stage.rank] using this
    · simpa [Ghost.setStage, e] using this
  · simp [slot?_setCell, hslot, Ghost.slot, Ghost.setStage, hst]
  · intro q hq
    simp [slot?_setCell, hq]

theorem release {p : Nat} (h : Tracks r n g (holding .read p + m)) :
    Tracks (r.setTag (.ofNat p) (.ofNat p + r.capacity)) n (g.setStage p .released) m := by
  have hst : g.stage p = .read := h.held.stage_eq (by decide)
  have hc : g.Current n p := h.current_of_rank (by simp [hst, Stage.rank]) (by simp [hst])
  have hslot := h.slot p hc
  have hp : p < g.values.length := (h.claimed_iff p).2 (by simp [hst, Stage.rank])
  have hn := h.shaped.two_le
  have hnext : g.stage (p + n) = .free := by
    by_contra h0
    have := h.reused (p + n) ((h.claimed_iff _).2 (Stage.rank_pos h0)) (by omega)
    simp [hst] at this
  have hcap : r.capacity = .ofNat n := by rw [← h.shaped.capacity, UInt64.ofNat_toNat]
  have hplace : r.place (.ofNat (p + n)) = r.place (.ofNat p) := by
    rw [h.shaped.place_eq, toNat_ofNat (h.lt_of_current hc), toNat_ofNat, Nat.add_mod_right]
    have := h.shaped.le
    have := h.short
    omega
  refine ⟨h.shaped.setTag _ _, h.back, h.front, h.short, ?_, ?_, ?_, ?_, ?_⟩
  · intro q
    have := h.claimed_iff q
    by_cases e : q = p
    · subst e; simpa [Ghost.setStage, Stage.rank] using hp
    · simpa [Ghost.setStage, e] using this
  · intro q
    have := h.taken_iff q
    by_cases e : q = p
    · subst e; simpa [Ghost.setStage, hst, Stage.rank] using this
    · simpa [Ghost.setStage, e] using this
  · intro q hq hle
    by_cases e : q - n = p
    · simp [Ghost.setStage, e]
    · simpa [Ghost.setStage, e] using h.reused q hq hle
  · have hh := h.held
    rw [← hst] at hh
    simpa [holding, Stage.Busy] using hh.setStage .released
  · intro q hq
    by_cases e : q = p + n
    · subst e
      have hne : p + n ≠ p := by omega
      change (r.setTag _ _).slot? _ = _
      rw [slot?_setTag, if_pos hplace.symm]
      have he : r.slot? (.ofNat (p + n)) = r.slot? (.ofNat p) := by simp only [slot?, hplace]
      rw [he, hslot]
      simp [Ghost.slot, g.setStage_ne _ hne, hnext, hst, hcap]
    · have hqp : q ≠ p := by
        rintro rfl
        simp [Ghost.Current, Ghost.setStage] at hq
      have hq' : g.Current n q := by
        refine ⟨by simpa [Ghost.setStage, hqp] using hq.1, fun hle => ?_⟩
        rw [← g.setStage_ne .released (by omega : q - n ≠ p)]
        exact hq.2 hle
      change (r.setTag _ _).slot? _ = _
      rw [slot?_setTag, if_neg (h.place_ne hc hq' (Ne.symm hqp)), h.slot q hq']
      simp [Ghost.slot, Ghost.setStage, hqp]

end Tracks

end Ring

end WorkStealing
