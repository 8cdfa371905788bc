import WorkStealing.Machine
import Mathlib.Algebra.BigOperators.Group.Finset.Basic
import Mathlib.Algebra.BigOperators.Group.Finset.Piecewise
import Mathlib.Algebra.Group.Pi.Basic
import Mathlib.Algebra.Order.BigOperators.Group.Finset
import Mathlib.Algebra.Order.Ring.Nat

namespace WorkStealing

variable {α : Type}

inductive Stage where
  | free
  | claimed
  | written
  | published
  | taken
  | read
  | released
  deriving DecidableEq, Repr

def Stage.rank : Stage → Nat
  | .free => 0
  | .claimed => 1
  | .written => 2
  | .published => 3
  | .taken => 4
  | .read => 5
  | .released => 6

theorem Stage.rank_inj {s t : Stage} (h : s.rank = t.rank) : s = t := by
  cases s <;> cases t <;> simp_all [rank]

theorem Stage.rank_pos {s : Stage} (h : s ≠ .free) : 0 < s.rank := by
  cases s <;> simp_all [rank]

theorem Stage.rank_le (s : Stage) : s.rank ≤ 6 := by cases s <;> decide

/-- What has become of a queue: the values of all claims, in the order of their positions, and how
far each position has come. -/
structure Ghost (α : Type) where
  values : List α
  front : Nat
  stage : Nat → Stage

namespace Ghost

def start : Ghost α := ⟨[], 0, fun _ => .free⟩

def setStage (g : Ghost α) (p : Nat) (s : Stage) : Ghost α :=
  { g with stage := Function.update g.stage p s }

@[simp]
theorem setStage_values (g : Ghost α) (p : Nat) (s : Stage) : (g.setStage p s).values = g.values :=
  rfl

@[simp]
theorem setStage_front (g : Ghost α) (p : Nat) (s : Stage) : (g.setStage p s).front = g.front := rfl

@[simp]
theorem setStage_self (g : Ghost α) (p : Nat) (s : Stage) : (g.setStage p s).stage p = s := by
  simp [setStage]

theorem setStage_ne (g : Ghost α) {p q : Nat} (s : Stage) (h : q ≠ p) :
    (g.setStage p s).stage q = g.stage q := by simp [setStage, h]

def claim (g : Ghost α) (v : α) : Ghost α :=
  { g.setStage g.values.length .claimed with values := g.values ++ [v] }

def take (g : Ghost α) : Ghost α := { g.setStage g.front .taken with front := g.front + 1 }

structure Le (g h : Ghost α) : Prop where
  values : g.values <+: h.values
  front : g.front ≤ h.front
  stage : ∀ p, (g.stage p).rank ≤ (h.stage p).rank

theorem Le.refl (g : Ghost α) : Le g g := ⟨List.prefix_rfl, le_rfl, fun _ => le_rfl⟩

theorem Le.trans {g h i : Ghost α} (l : Le g h) (l' : Le h i) : Le g i :=
  ⟨l.values.trans l'.values, l.front.trans l'.front, fun p => (l.stage p).trans (l'.stage p)⟩

theorem Le.value {g h : Ghost α} (l : Le g h) {p : Nat} {v : α} (hv : g.values[p]? = some v) :
    h.values[p]? = some v := by
  obtain ⟨vs, hvs⟩ := l.values
  rw [← hvs, List.getElem?_append_left (List.getElem?_eq_some_iff.1 hv).1, hv]

theorem Le.released {g h : Ghost α} (l : Le g h) {p : Nat} (hp : g.stage p = .released) :
    h.stage p = .released := by
  apply Stage.rank_inj
  have := l.stage p
  have := (h.stage p).rank_le
  rw [hp] at *
  simp only [Stage.rank] at *
  omega

theorem le_setStage (g : Ghost α) (p : Nat) (s : Stage) (h : (g.stage p).rank ≤ s.rank) :
    Le g (g.setStage p s) where
  values := List.prefix_rfl
  front := le_rfl
  stage q := by
    by_cases hq : q = p
    · subst hq; simpa [setStage] using h
    · simp [setStage, hq]

theorem le_claim (g : Ghost α) (v : α) (h : g.stage g.values.length = .free) :
    Le g (g.claim v) where
  values := List.prefix_append _ _
  front := le_rfl
  stage := (le_setStage g _ .claimed (by simp [h, Stage.rank])).stage

theorem le_take (g : Ghost α) (h : g.stage g.front = .published) : Le g g.take where
  values := List.prefix_rfl
  front := Nat.le_succ _
  stage := (le_setStage g _ .taken (by simp [h, Stage.rank])).stage

end Ghost

/-- A call holds a position at a stage that it alone can end. -/
abbrev Hold := Stage × Nat

def Stage.Busy (s : Stage) : Prop := s = .claimed ∨ s = .written ∨ s = .taken ∨ s = .read

instance : DecidablePred Stage.Busy := fun _ => inferInstanceAs (Decidable (_ ∨ _))

def holding (s : Stage) (p : Nat) : Hold → Nat := if s.Busy then Pi.single (s, p) 1 else 0

theorem holding_apply (s t : Stage) (p q : Nat) :
    holding s p (t, q) = if s.Busy ∧ t = s ∧ q = p then 1 else 0 := by
  by_cases h : s.Busy <;> simp [holding, h, Pi.single_apply, Prod.mk.injEq]

def Ghost.Held (g : Ghost α) (m : Hold → Nat) : Prop :=
  ∀ s p, s.Busy → m (s, p) = if g.stage p = s then 1 else 0

theorem Ghost.Held.stage_eq {g : Ghost α} {m : Hold → Nat} {s : Stage} {p : Nat} (hs : s.Busy)
    (h : g.Held (holding s p + m)) : g.stage p = s := by
  have := h s p hs
  rw [Pi.add_apply, holding_apply, if_pos ⟨hs, rfl, rfl⟩] at this
  split at this
  · assumption
  · omega

theorem Ghost.Held.ne {g : Ghost α} {m : Hold → Nat} {s : Stage} {p : Nat} (h : g.Held m)
    (hs : s.Busy) (hm : m (s, p) = 0) : g.stage p ≠ s := by
  intro he
  have := h s p hs
  rw [hm, if_pos he] at this
  omega

theorem Ghost.Held.setStage {g : Ghost α} {m : Hold → Nat} {p : Nat} (s : Stage)
    (h : g.Held (holding (g.stage p) p + m)) : (g.setStage p s).Held (holding s p + m) := by
  intro t q ht
  have hq := h t q ht
  simp only [Pi.add_apply, holding_apply, Ghost.setStage] at hq ⊢
  by_cases e : q = p
  · subst e
    by_cases e1 : g.stage q = t
    · by_cases e2 : t = s <;> simp_all [eq_comm]
    · by_cases e2 : t = s <;> simp_all [eq_comm]
  · simpa [e] using hq

structure Ghost.Orderly (g : Ghost α) (m : Hold → Nat) : Prop where
  claimed_iff : ∀ p, p < g.values.length ↔ 0 < (g.stage p).rank
  taken_iff : ∀ p, p < g.front ↔ 3 < (g.stage p).rank
  held : g.Held m

namespace Ghost.Orderly

variable {g : Ghost α} {m : Hold → Nat}

theorem front_le (h : g.Orderly m) : g.front ≤ g.values.length := by
  by_contra hc
  have h1 := (h.taken_iff g.values.length).1 (by omega)
  have h2 := (h.claimed_iff g.values.length).2 (by omega)
  omega

theorem stage_back (h : g.Orderly m) : g.stage g.values.length = .free := by
  apply Stage.rank_inj
  have := h.claimed_iff g.values.length
  change (g.stage g.values.length).rank = 0
  omega

theorem setStage {p : Nat} (h : g.Orderly (holding (g.stage p) p + m)) (s : Stage)
    (h0 : 0 < (g.stage p).rank) (hs : 0 < s.rank) (h3 : 3 < (g.stage p).rank ↔ 3 < s.rank) :
    (g.setStage p s).Orderly (holding s p + m) := by
  refine ⟨fun q => ?_, fun q => ?_, h.held.setStage s⟩
  · have := h.claimed_iff q
    by_cases e : q = p
    · subst e
      simp only [setStage_self, setStage_values]
      omega
    · rwa [g.setStage_ne s e]
  · have := h.taken_iff q
    by_cases e : q = p
    · subst e
      simp only [setStage_self, setStage_front]
      omega
    · rwa [g.setStage_ne s e]

theorem claim (h : g.Orderly m) (v : α) :
    (g.claim v).Orderly (holding .claimed g.values.length + m) := by
  have hback := h.stage_back
  refine ⟨fun q => ?_, fun q => ?_, ?_⟩
  · have := h.claimed_iff q
    by_cases e : q = g.values.length
    · simp [Ghost.claim, Ghost.setStage, e, Stage.rank]
    · simp only [Ghost.claim, Ghost.setStage, List.length_append, List.length_singleton,
        Function.update_of_ne e]
      omega
  · have := h.taken_iff q
    by_cases e : q = g.values.length
    · subst e
      simp only [hback, Stage.rank] at this
      simp only [Ghost.claim, Ghost.setStage, Function.update_self, Stage.rank]
      omega
    · simpa [Ghost.claim, Ghost.setStage, e] using this
  · have hh : g.Held (holding (g.stage g.values.length) g.values.length + m) := by
      simpa [hback, holding, Stage.Busy] using h.held
    exact hh.setStage .claimed

theorem take (h : g.Orderly m) (hs : g.stage g.front = .published) :
    g.take.Orderly (holding .taken g.front + m) := by
  have hlt : g.front < g.values.length := (h.claimed_iff _).2 (by rw [hs]; decide)
  refine ⟨fun q => ?_, fun q => ?_, ?_⟩
  · have := h.claimed_iff q
    by_cases e : q = g.front
    · simpa [Ghost.take, Ghost.setStage, e, Stage.rank] using hlt
    · simpa [Ghost.take, Ghost.setStage, e] using this
  · have := h.taken_iff q
    by_cases e : q = g.front
    · simp [Ghost.take, Ghost.setStage, e, Stage.rank]
    · simp only [Ghost.take, Ghost.setStage, Function.update_of_ne e]
      omega
  · have hh : g.Held (holding (g.stage g.front) g.front + m) := by
      simpa [hs, holding, Stage.Busy] using h.held
    exact hh.setStage .taken

end Ghost.Orderly

/-- No value that has been published waits behind one that has not. -/
def Ghost.Clear (g : Ghost α) : Prop := ∀ p q, q < p → g.stage p = .published → 3 ≤ (g.stage q).rank

namespace Ghost

theorem clear_start : (start : Ghost α).Clear := fun _ _ _ h => nomatch h

theorem Clear.setStage {g : Ghost α} {p : Nat} {s : Stage} (h : g.Clear) (hs : s ≠ .published)
    (hr : (g.stage p).rank ≤ s.rank) : (g.setStage p s).Clear := by
  intro a b hlt ha
  have hne : a ≠ p := by
    rintro rfl
    exact hs (by simpa using ha)
  rw [g.setStage_ne s hne] at ha
  have hb := h a b hlt ha
  by_cases e : b = p
  · subst e
    rw [setStage_self]
    omega
  · rwa [g.setStage_ne s e]

theorem Clear.claim {g : Ghost α} (h : g.Clear) (v : α) (hfree : g.stage g.values.length = .free) :
    (g.claim v).Clear :=
  Clear.setStage h (by decide) (by rw [hfree]; decide)

theorem Clear.take {g : Ghost α} (h : g.Clear) (hs : g.stage g.front = .published) :
    g.take.Clear :=
  Clear.setStage h (by decide) (by rw [hs]; decide)

def count (g : Ghost α) (w : Option α → Stage → Nat) : Nat :=
  ∑ p ∈ Finset.range g.values.length, w g.values[p]? (g.stage p)

theorem count_setStage (g : Ghost α) (w : Option α → Stage → Nat) {p : Nat} (s : Stage)
    (hp : p < g.values.length) : (g.setStage p s).count w + w g.values[p]? (g.stage p) =
      g.count w + w g.values[p]? s := by
  have hmem : p ∈ Finset.range g.values.length := Finset.mem_range.2 hp
  have hrest : ∑ q ∈ (Finset.range g.values.length).erase p,
      w g.values[q]? ((g.setStage p s).stage q) =
        ∑ q ∈ (Finset.range g.values.length).erase p, w g.values[q]? (g.stage q) := by
    refine Finset.sum_congr rfl fun q hq => ?_
    rw [g.setStage_ne s (Finset.ne_of_mem_erase hq)]
  have h1 := Finset.add_sum_erase _ (fun q => w g.values[q]? (g.stage q)) hmem
  have h2 := Finset.add_sum_erase _ (fun q => w g.values[q]? ((g.setStage p s).stage q)) hmem
  simp only [setStage_self] at h2
  simp only [count, setStage_values]
  omega

theorem count_claim (g : Ghost α) (w : Option α → Stage → Nat) (v : α) :
    (g.claim v).count w = g.count w + w (some v) .claimed := by
  have hlen : (g.claim v).values.length = g.values.length + 1 := by simp [claim]
  rw [count, hlen, Finset.sum_range_succ]
  have hlast : w (g.claim v).values[g.values.length]? ((g.claim v).stage g.values.length) =
      w (some v) .claimed := by simp [claim, setStage]
  rw [hlast]
  congr 1
  refine Finset.sum_congr rfl fun q hq => ?_
  rw [Finset.mem_range] at hq
  have hne : q ≠ g.values.length := by omega
  simp [claim, setStage, hne, List.getElem?_append_left hq]

end Ghost

def Stage.InStock (s : Stage) : Prop := 3 ≤ s.rank ∧ s.rank < 6

instance : DecidablePred Stage.InStock := fun _ => inferInstanceAs (Decidable (_ ∧ _))

def Stage.stocked (s : Stage) (f : α → Bool) (v? : Option α) : Nat :=
  if s.InStock ∧ v?.any f then 1 else 0

def Stage.waiting (s : Stage) : Nat := if s = .published then 1 else 0

namespace Ghost

/-- How many values of a kind have been published and not yet given up. -/
def stock (g : Ghost α) (f : α → Bool) : Nat := g.count fun v? s => s.stocked f v?

/-- How many values have been published and not yet taken. -/
def ready (g : Ghost α) : Nat := g.count fun _ s => s.waiting

theorem stock_start (f : α → Bool) : (start : Ghost α).stock f = 0 := rfl

theorem stock_setStage (g : Ghost α) (f : α → Bool) {p : Nat} (s : Stage)
    (hp : p < g.values.length) :
    (g.setStage p s).stock f + (g.stage p).stocked f g.values[p]? =
      g.stock f + s.stocked f g.values[p]? := g.count_setStage _ s hp

theorem ready_setStage (g : Ghost α) {p : Nat} (s : Stage) (hp : p < g.values.length) :
    (g.setStage p s).ready + (g.stage p).waiting = g.ready + s.waiting := g.count_setStage _ s hp

theorem stock_claim (g : Ghost α) (f : α → Bool) (v : α) : (g.claim v).stock f = g.stock f := by
  rw [stock, count_claim]
  simp [stock, Stage.stocked, Stage.InStock, Stage.rank]

theorem ready_claim (g : Ghost α) (v : α) : (g.claim v).ready = g.ready := by
  rw [ready, count_claim]
  simp [ready, Stage.waiting]

def carried (g : Ghost α) (f : α → Bool) (m : Hold → Nat) : Nat :=
  ∑ p ∈ Finset.range g.values.length, (m (.taken, p) + m (.read, p)) * (g.values[p]?.any f).toNat

theorem carried_add (g : Ghost α) (f : α → Bool) (m m' : Hold → Nat) :
    g.carried f (m + m') = g.carried f m + g.carried f m' := by
  simp only [carried, ← Finset.sum_add_distrib, Pi.add_apply]
  refine Finset.sum_congr rfl fun p _ => ?_
  rw [← Nat.add_mul]
  congr 1
  omega

theorem carried_eq_zero (g : Ghost α) (f : α → Bool) {m : Hold → Nat}
    (ht : ∀ p, m (.taken, p) = 0) (hr : ∀ p, m (.read, p) = 0) : g.carried f m = 0 :=
  Finset.sum_eq_zero fun p _ => by rw [ht, hr, Nat.zero_add, Nat.zero_mul]

theorem toNat_eq_countP (f : α → Bool) (v : α) : (f v).toNat = [v].countP f := by
  cases h : f v <;> simp [h]

theorem carried_holding (g : Ghost α) (f : α → Bool) {s : Stage} {p : Nat} {v : α}
    (hs : s = .taken ∨ s = .read) (hv : g.values[p]? = some v) :
    g.carried f (holding s p) = [v].countP f := by
  have hp : p < g.values.length := (List.getElem?_eq_some_iff.1 hv).1
  have hone (q : Nat) :
      (holding s p (.taken, q) + holding s p (.read, q) : Nat) = if q = p then 1 else 0 := by
    rcases hs with rfl | rfl <;> simp [holding_apply, Stage.Busy]
  simp only [carried, hone, ite_mul, Nat.one_mul, Nat.zero_mul]
  rw [Finset.sum_ite_eq', if_pos (Finset.mem_range.2 hp), hv, Option.any_some, toNat_eq_countP]

variable {g : Ghost α} {m : Hold → Nat}

theorem Orderly.clear (h : g.Orderly m) (hc : ∀ p, m (.claimed, p) = 0)
    (hw : ∀ p, m (.written, p) = 0) : g.Clear := by
  intro p q hlt hp
  have hpos : 0 < (g.stage q).rank := by
    rw [← h.claimed_iff]
    exact hlt.trans ((h.claimed_iff p).2 (by rw [hp]; decide))
  have h1 := h.held.ne (by decide) (hc q)
  have h2 := h.held.ne (by decide) (hw q)
  revert hpos h1 h2
  cases g.stage q <;> simp [Stage.rank]

theorem Orderly.ready_eq_zero (h : g.Orderly m) (hf : (g.stage g.front).rank < 3) (hc : g.Clear) :
    g.ready = 0 := by
  rw [ready, count]
  refine Finset.sum_eq_zero fun p _ => if_neg fun hp => ?_
  have hle : g.front ≤ p := by
    have := h.taken_iff p
    rw [hp] at this
    simp only [Stage.rank] at this
    omega
  rcases Nat.eq_or_lt_of_le hle with rfl | hlt
  · simp [hp, Stage.rank] at hf
  · have := hc p g.front hlt hp
    omega

theorem Orderly.ready_eq_sum (h : g.Orderly m) : g.ready =
    ∑ i ∈ Finset.range (g.values.length - g.front), (g.stage (g.front + i)).waiting := by
  have hle := h.front_le
  have hsplit : g.values.length = g.front + (g.values.length - g.front) := by omega
  have htaken : ∑ p ∈ Finset.range g.front, (g.stage p).waiting = 0 := by
    refine Finset.sum_eq_zero fun p hp => if_neg fun hs => ?_
    have := (h.taken_iff p).1 (Finset.mem_range.1 hp)
    rw [hs] at this
    exact absurd this (by decide)
  rw [ready, count]
  conv_lhs => rw [hsplit, Finset.sum_range_add, htaken, zero_add]

theorem waiting_eq_zero (hr : g.ready = 0) {p : Nat} (hp : p < g.values.length) :
    (g.stage p).waiting = 0 := by
  rw [ready, count] at hr
  exact Finset.sum_eq_zero_iff.1 hr p (Finset.mem_range.2 hp)

theorem Orderly.ready_eq_zero_of_front (h : g.Orderly m) (hf : g.front = g.values.length) :
    g.ready = 0 := by
  rw [h.ready_eq_sum, hf, Nat.sub_self]
  rfl

theorem Orderly.front_eq (h : g.Orderly m) (hc : ∀ p, m (.claimed, p) = 0)
    (hw : ∀ p, m (.written, p) = 0) (hr : g.ready = 0) : g.front = g.values.length := by
  refine Nat.le_antisymm h.front_le (Nat.not_lt.1 fun hlt => ?_)
  have h0 := (h.claimed_iff g.front).1 hlt
  have h3 := h.taken_iff g.front
  have h1 := h.held.ne (by decide) (hc g.front)
  have h2 := h.held.ne (by decide) (hw g.front)
  have hpub := waiting_eq_zero hr hlt
  revert h0 h3 h1 h2 hpub
  cases g.stage g.front <;> simp [Stage.rank, Stage.waiting]

theorem Orderly.stock_eq_carried (h : g.Orderly m) (hr : g.ready = 0) (f : α → Bool) :
    g.stock f = g.carried f m := by
  rw [stock, count, carried]
  refine Finset.sum_congr rfl fun p hp => ?_
  have hpub := waiting_eq_zero hr (Finset.mem_range.1 hp)
  rw [h.held .taken p (by decide), h.held .read p (by decide), Stage.stocked]
  revert hpub
  cases g.stage p <;> cases g.values[p]?.any f <;>
    simp [Stage.waiting, Stage.InStock, Stage.rank]

end Ghost

def Idle (m : Hold → Nat) : Prop := ∀ s p, s.Busy → m (s, p) = 0

namespace Ghost.Orderly

variable {g : Ghost α} {m : Hold → Nat}

theorem released_of_lt (h : g.Orderly m) (hm : Idle m) {p : Nat} (hp : p < g.front) :
    g.stage p = .released := by
  have h3 := (h.taken_iff p).1 hp
  have htaken := h.held.ne (by decide) (hm .taken p (by decide))
  have hread := h.held.ne (by decide) (hm .read p (by decide))
  revert h3 htaken hread
  cases g.stage p <;> simp [Stage.rank]

theorem published_of_le (h : g.Orderly m) (hm : Idle m) {p : Nat} (hf : g.front ≤ p)
    (hp : p < g.values.length) : g.stage p = .published := by
  have h0 := (h.claimed_iff p).1 hp
  have h3 := mt (h.taken_iff p).2 (by omega)
  have hclaimed := h.held.ne (by decide) (hm .claimed p (by decide))
  have hwritten := h.held.ne (by decide) (hm .written p (by decide))
  revert h0 h3 hclaimed hwritten
  cases g.stage p <;> simp [Stage.rank]

theorem sum_any_eq (f : α → Bool) (vs : List α) :
    (∑ i ∈ Finset.range vs.length, if vs[i]?.any f then 1 else 0) = vs.countP f := by
  induction vs with
  | nil => rfl
  | cons v vs ih =>
    rw [List.length_cons, Finset.sum_range_succ', List.countP_cons, ← ih]
    rfl

theorem stock_eq (h : g.Orderly m) (hm : Idle m) (f : α → Bool) :
    g.stock f = (g.values.drop g.front).countP f := by
  have hlen : g.values.length = g.front + (g.values.drop g.front).length := by
    have := h.front_le
    rw [List.length_drop]
    omega
  have htaken : ∑ p ∈ Finset.range g.front, (g.stage p).stocked f g.values[p]? = 0 :=
    Finset.sum_eq_zero fun p hp => by
      rw [h.released_of_lt hm (Finset.mem_range.1 hp)]
      simp [Stage.stocked, Stage.InStock, Stage.rank]
  rw [stock, count, hlen, Finset.sum_range_add, htaken, Nat.zero_add, ← sum_any_eq]
  refine Finset.sum_congr rfl fun i hi => ?_
  have hlt := Finset.mem_range.1 hi
  rw [h.published_of_le hm (by omega) (by omega), List.getElem?_drop]
  simp [Stage.stocked, Stage.InStock, Stage.rank]

end Ghost.Orderly

end WorkStealing
