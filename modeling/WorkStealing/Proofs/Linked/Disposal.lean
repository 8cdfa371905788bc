import WorkStealing.Proofs.Linked.Chain
import Mathlib.Data.List.ReduceOption

namespace WorkStealing

variable {α : Type}

namespace Linked

/-- From `a` on, the chain has a node for each of these values, and it ends with them. -/
def Strung (q : Linked α) (a : Nat) (os : List (Option α)) : Prop :=
  ∀ i (h : i < os.length), q.live? (a + i) =
    some { value := os[i], next := if i + 1 < os.length then some (a + i + 1) else none }

variable {q : Linked α} {g : Ghost α} {m : Hold → Nat}

theorem live?_free_ne (q : Linked α) {a b : Nat} (h : a ≠ b) : (q.free a).live? b = q.live? b := by
  simp [live?, free, getElem?_modify, h]

theorem Strung.tail {a : Nat} {o : Option α} {os : List (Option α)} (h : q.Strung a (o :: os)) :
    (q.free a).Strung (a + 1) os := by
  intro i hi
  have := h (i + 1) (Nat.succ_lt_succ hi)
  simp only [List.length_cons, List.getElem_cons_succ, Nat.add_lt_add_iff_right] at this
  rw [live?_free_ne _ (by omega), Nat.add_right_comm a 1 i]
  exact this

/-- Frees the nodes `as` one after the other, each while it is live, until no node is linked; the
values left in them are `vs`. -/
inductive Disposes : Linked α → Option Nat → List Nat → List α → Linked α → Prop where
  | stop (q : Linked α) : Disposes q none [] [] q
  | node {q r : Linked α} {a : Nat} {n : Node α} {as : List Nat} {vs : List α}
      (live : q.live? a = some n) (rest : Disposes (q.free a) n.next as vs r) :
      Disposes q (some a) (a :: as) (n.value.toList ++ vs) r

theorem Disposes.disposeFrom_eq {r : Linked α} {a? : Option Nat} {as : List Nat} {vs : List α}
    (h : Disposes q a? as vs r) {n : Nat} (hn : as.length ≤ n) :
    disposeFrom n q a? [] = (r, vs) := by
  induction h generalizing n with
  | stop q => cases n <;> rfl
  | node live rest ih =>
    obtain ⟨n, rfl⟩ := Nat.exists_eq_add_of_le' (Nat.lt_of_lt_of_le (Nat.succ_pos _) hn)
    rename_i node _ _
    simp only [disposeFrom, live, List.append_nil]
    rw [Linked.disposeFrom_eq, ih (Nat.le_of_succ_le_succ hn)]
    cases node.value <;> simp

theorem Strung.disposes {a : Nat} {os : List (Option α)} (h : q.Strung a os) :
    ∃ r, Disposes q (if os = [] then none else some a) (List.range' a os.length)
      os.reduceOption r := by
  induction os generalizing q a with
  | nil => exact ⟨q, .stop q⟩
  | cons o os ih =>
    have hnode : q.live? a = some ⟨o, if os = [] then none else some (a + 1), false⟩ := by
      have := h 0 (Nat.succ_pos _)
      cases os <;> simpa using this
    obtain ⟨r, hr⟩ := ih h.tail
    have hs := Disposes.node hnode hr
    refine ⟨r, ?_⟩
    rw [if_neg (by simp), List.length_cons, List.range'_succ]
    cases o with
    | none => exact hs
    | some v => exact hs

namespace Tracks

theorem strung (ht : Tracks q g m) (hm : Idle m) :
    q.Strung g.front (none :: (g.values.drop g.front).map some) := by
  have hle := ht.orderly.front_le
  intro i hi
  simp only [List.length_cons, List.length_map, List.length_drop] at hi ⊢
  have hstage (p : Nat) (hf : g.front ≤ p) : g.stage p = if p < g.values.length then .published
      else .free := by
    split
    · exact ht.orderly.published_of_le hm hf ‹_›
    · exact Stage.rank_inj (Nat.eq_zero_of_not_pos fun h0 => ‹¬ _› ((ht.orderly.claimed_iff p).2 h0))
  have hhere := hstage (g.front + i) (by omega)
  rw [ht.live (by omega) (by rw [hhere]; split <;> decide)]
  congr 1
  have hnext : (3 ≤ (g.stage (g.front + i)).rank) ↔ i + 1 < g.values.length - g.front + 1 := by
    rw [hhere]
    split
    · simp only [Stage.rank, le_refl, true_iff]
      omega
    · simp only [Stage.rank, Nat.reduceLeDiff, false_iff]
      omega
  have hfront : g.cell g.front = none := by
    rcases hf : g.front with _ | p
    · rfl
    · exact if_pos ((ht.orderly.taken_iff p).1 (by omega))
  have hcell : some (g.cell (g.front + i)) = (none :: (g.values.drop g.front).map some)[i]? := by
    cases i with
    | zero => simp [hfront]
    | succ i =>
      have hback := hstage (g.front + i) (by omega)
      have hlt : g.front + i < g.values.length := by omega
      rw [if_pos hlt] at hback
      simp [Ghost.cell, hback, Stage.rank, hlt]
  rw [List.getElem?_eq_getElem (by simpa using hi), Option.some_inj] at hcell
  simp only [Ghost.node, hcell, hnext, Node.mk.injEq, true_and, decide_eq_false_iff_not]
  rw [hhere]
  split <;> decide

theorem disposes (ht : Tracks q g m) (hm : Idle m) :
    ∃ r, Disposes q (some q.stub) (List.range' g.front (g.values.length + 1 - g.front))
      (g.values.drop g.front) r ∧ q.dispose = (r, g.values.drop g.front) := by
  have hle := ht.orderly.front_le
  obtain ⟨r, hr⟩ := (ht.strung hm).disposes
  have hvs : (none :: (g.values.drop g.front).map some).reduceOption = g.values.drop g.front := by
    rw [List.reduceOption_cons_of_none, List.reduceOption, List.filterMap_map]
    exact List.filterMap_some
  rw [if_neg (by simp), hvs] at hr
  simp only [List.length_cons, List.length_map, List.length_drop, ← Nat.sub_add_comm hle] at hr
  refine ⟨r, ht.stub ▸ hr, ?_⟩
  rw [dispose, ht.stub]
  exact hr.disposeFrom_eq (by simp [ht.size])

end Tracks

end Linked

end WorkStealing
