import WorkStealing.Proofs.Queue.Serial
import WorkStealing.Proofs.Ring.Stock
import Mathlib.Data.Nat.ModEq

namespace WorkStealing.Ring

open Queue

variable {α : Type}

theorem turn_self (pos : UInt64) : turn pos pos = .ready := if_pos rfl

theorem turn_wrapped {p d : Nat} (h0 : 0 < d) (hd : d ≤ 2 ^ 63) :
    turn (.ofNat p) (.ofNat (p + d)) = .behind := by
  have hsub : (UInt64.ofNat p - UInt64.ofNat (p + d)).toNat = 2 ^ 64 - d := by
    rw [UInt64.toNat_sub, UInt64.toNat_ofNat', UInt64.toNat_ofNat']
    omega
  have hne : UInt64.ofNat p ≠ UInt64.ofNat (p + d) := by
    intro h
    rw [h, UInt64.sub_self] at hsub
    simp only [UInt64.toNat_zero] at hsub
    omega
  rw [turn, if_neg hne, if_neg]
  rw [UInt64.lt_iff_toNat_lt, hsub]
  simp only [UInt64.reduceToNat]
  omega

/-- A ring of `n` slots at rest: `f` values have gone out and `vs` are left, oldest first. -/
structure Holds (r : Ring α) (n f : Nat) (vs : List α) : Prop where
  shaped : r.Shaped n
  front : r.front = .ofNat f
  back : r.back = .ofNat (f + vs.length)
  le : vs.length ≤ n
  held : ∀ i v, vs[i]? = some v → r.slot? (.ofNat (f + i)) = some ⟨.ofNat (f + i + 1), some v⟩
  free : ∀ i, vs.length ≤ i → i < n → r.slot? (.ofNat (f + i)) = some ⟨.ofNat (f + i), none⟩

theorem holds_new {capacity : UInt64} {slotSize : Option UInt64} {r : Ring α}
    (h : Ring.new capacity slotSize = .ok r) : r.Holds capacity.toNat 0 [] := by
  obtain ⟨hshaped, hback, hfront, hslot⟩ := new_ok h
  refine ⟨hshaped, hfront, hback, Nat.zero_le _, ?_, fun i _ hi => ?_⟩
  · simp
  · simpa using hslot i hi

theorem Shaped.place_ofNat {r : Ring α} {n : Nat} (h : r.Shaped n) (p q : Nat) :
    r.place (.ofNat p) = r.place (.ofNat q) ↔ p ≡ q [MOD n] := by
  have hdvd : n ∣ 2 ^ 64 := h.dvd.trans (Nat.pow_dvd_pow 2 (by omega))
  rw [h.place_eq, UInt64.toNat_ofNat', UInt64.toNat_ofNat', Nat.mod_mod_of_dvd _ hdvd,
    Nat.mod_mod_of_dvd _ hdvd]
  rfl

theorem Shaped.place_ne {r : Ring α} {n f i j : Nat} (h : r.Shaped n) (hi : i < n) (hj : j < n)
    (hne : i ≠ j) : r.place (.ofNat (f + i)) ≠ r.place (.ofNat (f + j)) := by
  rw [Ne, h.place_ofNat]
  intro he
  exact hne (Nat.ModEq.eq_of_lt_of_lt (he.add_left_cancel' f) hi hj)

theorem Shaped.place_front_ne {r : Ring α} {n f i : Nat} (h : r.Shaped n) (hi : i + 1 < n) :
    r.place (.ofNat f) ≠ r.place (.ofNat (f + (i + 1))) :=
  Nat.add_zero f ▸ h.place_ne (by omega) hi (by omega)

def afterPush (r : Ring α) (v : α) : Ring α :=
  (({ r with back := r.back + 1 } : Ring α).setCell r.back (some v)).setTag r.back (r.back + 1)

def afterPop (r : Ring α) : Ring α :=
  (({ r with front := r.front + 1 } : Ring α).setCell r.front none).setTag r.front
    (r.front + r.capacity)

variable {r : Ring α}

theorem slot?_setCell_setTag (p q tag : UInt64) (cell : Option α) :
    ((r.setCell p cell).setTag p tag).slot? q =
      if r.place p = r.place q then (r.slot? q).map fun _ => ⟨tag, cell⟩ else r.slot? q := by
  rw [slot?_setTag, slot?_setCell]
  change (if r.place p = r.place q then _ else _) = _
  split
  · rw [Option.map_map]
    rfl
  · rfl

theorem slot?_afterPush (v : α) (p : UInt64) :
    (r.afterPush v).slot? p =
      if r.place r.back = r.place p then (r.slot? p).map fun _ => ⟨r.back + 1, some v⟩
      else r.slot? p :=
  slot?_setCell_setTag ..

theorem slot?_afterPop (p : UInt64) :
    r.afterPop.slot? p =
      if r.place r.front = r.place p then (r.slot? p).map fun _ => ⟨r.front + r.capacity, none⟩
      else r.slot? p :=
  slot?_setCell_setTag ..

namespace Holds

variable {n f : Nat} {v : α} {vs : List α}

theorem afterPush (h : r.Holds n f vs) (hlt : vs.length < n) (v : α) :
    (r.afterPush v).Holds n f (vs ++ [v]) where
  shaped := h.shaped.congr (by simp [Ring.afterPush, setTag, setCell]) rfl rfl
  front := h.front
  back := by
    change r.back + 1 = _
    rw [h.back, List.length_append]
    simp [UInt64.ofNat_add, UInt64.add_assoc]
  le := by
    rw [List.length_append]
    exact hlt
  held i w hi := by
    rw [slot?_afterPush, h.back]
    rcases Nat.lt_trichotomy i vs.length with hl | rfl | hl
    · rw [if_neg (h.shaped.place_ne hlt (by omega) (by omega))]
      exact h.held i w (by rwa [List.getElem?_append_left hl] at hi)
    · obtain rfl : v = w := by simpa using hi
      rw [if_pos rfl, h.free _ le_rfl hlt]
      simp [UInt64.ofNat_add]
    · have hnone : (vs ++ [v])[i]? = none := List.getElem?_eq_none (by
        rw [List.length_append]
        exact hl)
      cases hnone.symm.trans hi
  free i hi hn := by
    rw [List.length_append, List.length_singleton] at hi
    rw [slot?_afterPush, h.back, if_neg (h.shaped.place_ne hlt hn (by omega))]
    exact h.free i (by omega) hn

theorem afterPop (h : r.Holds n f (v :: vs)) : r.afterPop.Holds n (f + 1) vs where
  shaped := h.shaped.congr (by simp [Ring.afterPop, setTag, setCell]) rfl rfl
  front := by
    change r.front + 1 = _
    rw [h.front, UInt64.ofNat_add]
    rfl
  back := by
    rw [Nat.add_right_comm, Nat.add_assoc]
    exact h.back
  le := Nat.le_of_succ_le h.le
  held i w hi := by
    have hl := (List.getElem?_eq_some_iff.1 hi).1
    have hle := h.le
    rw [List.length_cons] at hle
    rw [slot?_afterPop, h.front, Nat.add_right_comm, Nat.add_assoc,
      if_neg (h.shaped.place_front_ne (by omega))]
    exact h.held (i + 1) w hi
  free i hi hn := by
    have hcap : r.capacity = .ofNat n := by rw [← h.shaped.capacity, UInt64.ofNat_toNat]
    rw [slot?_afterPop, h.front, Nat.add_right_comm, Nat.add_assoc]
    rcases Nat.lt_or_ge (i + 1) n with hl | hl
    · rw [if_neg (h.shaped.place_front_ne hl)]
      exact h.free (i + 1) (by simpa using hi) hl
    -- the slot given back is the one that the next cycle comes to last
    · obtain rfl : i + 1 = n := by omega
      have hplace : r.place (.ofNat f) = r.place (.ofNat (f + (i + 1))) := by
        rw [h.shaped.place_ofNat]
        exact (Nat.add_mod_right ..).symm
      have hheld := h.held 0 v rfl
      rw [slot?, Nat.add_zero, hplace, ← slot?] at hheld
      rw [if_pos hplace, hheld, hcap]
      simp [UInt64.ofNat_add]

theorem slot?_back (h : r.Holds n f vs) (hlt : vs.length < n) :
    r.slot? r.back = some ⟨r.back, none⟩ := by
  rw [h.back]
  exact h.free _ le_rfl hlt

theorem gives_push (h : r.Holds n f vs) (hlt : vs.length < n) (v : α) :
    Gives r (.push v) (.pushed (.ok ())) (r.afterPush v) := by
  have hslot := h.slot?_back hlt
  have heq : enqueue r v = some (r.afterPush v, .ok ()) := by
    simp [enqueue, Machine.run, pace, Machine.runFrom, Queue.push, push, Machine.mapResult,
      Push.moves, hslot, turn_self, Move.embed, Ring.afterPush, setCell, setTag, place, Except.map]
  let claimed : Ring α := { r with back := r.back + 1 }
  refine Queue.gives_push (I := fun s e =>
    (s = r ∧ (e = .look v ∨ e = .inspect v r.back ∨ e = .claim v r.back)) ∨
      (s = claimed ∧ e = .write v r.back) ∨
      (s = claimed.setCell r.back (some v) ∧ e = .publish r.back)) heq (.inl ⟨rfl, .inl rfl⟩) ?_
  rintro s e (⟨rfl, rfl | rfl | rfl⟩ | ⟨rfl, rfl⟩ | ⟨rfl, rfl⟩) a ha
  all_goals
    simp [Queue.push, push, Machine.mapResult, Push.moves, hslot, turn_self, Move.embed,
      Except.map] at ha
  · simp [ha]
  · simp [ha]
  · obtain rfl | rfl := ha <;> simp [claimed]
  · simp [ha]
  · simp [ha, Ring.afterPush, claimed, setCell, setTag, place]

theorem slot?_full (h : r.Holds n f vs) (hfull : vs.length = n) :
    ∃ s, r.slot? r.back = some s ∧ turn s.tag r.back = .behind := by
  have h2 := h.shaped.two_le
  have hle := h.shaped.le
  obtain ⟨v, hv⟩ : ∃ v, vs[0]? = some v := ⟨_, List.getElem?_eq_getElem (by omega)⟩
  have hplace : r.place (.ofNat (f + n)) = r.place (.ofNat f) := by
    rw [h.shaped.place_ofNat]
    exact Nat.add_mod_right ..
  refine ⟨⟨.ofNat (f + 1), some v⟩, ?_, ?_⟩
  · rw [h.back, hfull, slot?, hplace]
    exact h.held 0 v hv
  · have hturn := turn_wrapped (p := f + 1) (d := n - 1) (by omega) (by omega)
    rwa [show f + 1 + (n - 1) = f + vs.length by omega, ← h.back] at hturn

theorem gives_push_full (h : r.Holds n f vs) (hfull : vs.length = n) (v : α) :
    Gives r (.push v) (.pushed (.error v)) r := by
  obtain ⟨s, hslot, hturn⟩ := h.slot?_full hfull
  have heq : enqueue r v = some (r, .error v) := by
    simp [enqueue, Machine.run, pace, Machine.runFrom, Queue.push, push, Machine.mapResult,
      Push.moves, hslot, hturn, Move.embed, Except.map]
  refine Queue.gives_push (I := fun s e => s = r ∧ (e = .look v ∨ e = .inspect v r.back)) heq
    ⟨rfl, .inl rfl⟩ ?_
  rintro s e ⟨rfl, rfl | rfl⟩ a ha
  all_goals
    simp [Queue.push, push, Machine.mapResult, Push.moves, hslot, hturn, Move.embed,
      Except.map] at ha
    simp [ha]

theorem slot?_front_of_nil (h : r.Holds n f []) : r.slot? r.front = some ⟨r.front, none⟩ := by
  have h2 := h.shaped.two_le
  rw [h.front]
  exact h.free 0 le_rfl (by omega)

theorem dequeue_nil (h : r.Holds n f []) : dequeue r = some (r, none) := by
  simp [dequeue, Machine.run, pace, Machine.runFrom, Queue.pop, pop, Machine.mapResult,
    Pop.moves, h.slot?_front_of_nil, turn_succ, Move.embed]

theorem gives_pop_empty (h : r.Holds n f []) : Gives r .pop (.popped none) r := by
  have hslot := h.slot?_front_of_nil
  refine Queue.gives_pop (I := fun s d => s = r ∧ (d = .look ∨ d = .inspect r.front)) h.dequeue_nil
    ⟨rfl, .inl rfl⟩ ?_
  rintro s d ⟨rfl, rfl | rfl⟩ a ha
  all_goals
    simp [Queue.pop, pop, Machine.mapResult, Pop.moves, hslot, turn_succ, Move.embed] at ha
    simp [ha]

theorem slot?_front (h : r.Holds n f (v :: vs)) :
    r.slot? r.front = some ⟨r.front + 1, some v⟩ := by
  have hslot := h.held 0 v rfl
  rw [Nat.add_zero, UInt64.ofNat_add, ← h.front] at hslot
  exact hslot

theorem dequeue_eq (h : r.Holds n f (v :: vs)) : dequeue r = some (r.afterPop, some v) := by
  have hslot := h.slot?_front
  have hread : Ring.slot? { r with front := r.front + 1 } r.front = _ := hslot
  simp [dequeue, Machine.run, pace, Machine.runFrom, Queue.pop, pop, Machine.mapResult,
    Pop.moves, hslot, hread, turn_self, Move.embed, Ring.afterPop, setCell, setTag, place, capacity]

theorem gives_pop (h : r.Holds n f (v :: vs)) : Gives r .pop (.popped (some v)) r.afterPop := by
  have hslot := h.slot?_front
  let claimed : Ring α := { r with front := r.front + 1 }
  have hread : claimed.slot? r.front = _ := hslot
  refine Queue.gives_pop (I := fun s d =>
    (s = r ∧ (d = .look ∨ d = .inspect r.front ∨ d = .claim r.front)) ∨
      (s = claimed ∧ d = .read r.front) ∨
      (s = claimed.setCell r.front none ∧ d = .release r.front v)) h.dequeue_eq
    (.inl ⟨rfl, .inl rfl⟩) ?_
  rintro s e (⟨rfl, rfl | rfl | rfl⟩ | ⟨rfl, rfl⟩ | ⟨rfl, rfl⟩) a ha
  all_goals
    simp [Queue.pop, pop, Machine.mapResult, Pop.moves, hslot, hread, turn_self, Move.embed] at ha
  · simp [ha]
  · simp [ha]
  · obtain rfl | rfl := ha <;> simp [claimed]
  · simp [ha]
  · simp [ha, Ring.afterPop, claimed, setCell, setTag, place, capacity]

theorem gives (h : r.Holds n f vs) (c : Request α) :
    ∃ t g, Gives r c (serve n vs c).1 t ∧ t.Holds n g (serve n vs c).2 ∧
      g + (serve n vs c).2.length = f + vs.length + if (serve n vs c).1.accepted then 1 else 0 := by
  cases c with
  | push v =>
    rcases Nat.lt_or_ge vs.length n with hlt | hge
    · simp only [serve, if_pos hlt]
      refine ⟨_, f, h.gives_push hlt v, h.afterPush hlt v, ?_⟩
      rw [List.length_append]
      rfl
    · simp only [serve, if_neg (Nat.not_lt.2 hge)]
      exact ⟨r, f, h.gives_push_full (le_antisymm h.le hge) v, h, rfl⟩
  | pop =>
    cases vs with
    | nil => exact ⟨r, f, h.gives_pop_empty, h, rfl⟩
    | cons v vs => exact ⟨r.afterPop, f + 1, h.gives_pop, h.afterPop, Nat.add_right_comm ..⟩

theorem answers (h : r.Holds n f vs) (cs : List (Request α)) :
    ∃ t g, Answers r cs (serveAll n vs cs).1 t ∧ t.Holds n g (serveAll n vs cs).2 ∧
      g + (serveAll n vs cs).2.length =
        f + vs.length + (serveAll n vs cs).1.countP Outcome.accepted := by
  induction cs generalizing r f vs with
  | nil => exact ⟨r, f, answers_nil r, h, rfl⟩
  | cons c cs ih =>
    obtain ⟨t, g, hgives, ht, hg⟩ := h.gives c
    obtain ⟨u, k, hanswers, hu, hk⟩ := ih ht
    refine ⟨u, k, hgives.answers_cons hanswers, hu, ?_⟩
    change k + (serveAll n (serve n vs c).2 cs).2.length = f + vs.length +
      ((serve n vs c).1 :: (serveAll n (serve n vs c).2 cs).1).countP Outcome.accepted
    rw [List.countP_cons]
    omega

theorem drain_eq (h : r.Holds n f vs) (k : Nat) : ∃ t, drain k r = some (t, vs.take k) := by
  induction k generalizing r f vs with
  | zero => exact ⟨r, by simp [drain_zero]⟩
  | succ k ih =>
    cases vs with
    | nil => exact ⟨r, by simp [drain_succ, h.dequeue_nil]⟩
    | cons v vs =>
      obtain ⟨t, ht⟩ := ih h.afterPop
      exact ⟨t, by simp [drain_succ, h.dequeue_eq, ht]⟩

theorem items_eq (h : r.Holds n f vs) : Holding.items r = vs := by
  obtain ⟨t, ht⟩ := h.drain_eq r.capacity.toNat
  simp only [Holding.items, ht, Option.elim_some]
  rw [h.shaped.capacity, List.take_of_length_le h.le]

theorem answers_drop (h : r.Holds n f vs) :
    ∃ t, Answers r (.replicate (vs.length + 1) .pop)
      (vs.map (fun v => .popped (some v)) ++ [.popped none]) t := by
  induction vs generalizing r f with
  | nil => exact ⟨r, h.gives_pop_empty.answers_cons (answers_nil r)⟩
  | cons v vs ih =>
    obtain ⟨t, ht⟩ := ih h.afterPop
    exact ⟨t, h.gives_pop.answers_cons ht⟩

end Holds

/-- How a ring shows that it holds `vs`, with room for `n`: what the next call comes to, and what is
found when the ring is let go of. -/
structure ActsAs (r : Ring α) (n : Nat) (vs : List α) : Prop where
  le : vs.length ≤ n
  push : vs.length < n → ∀ v, ∃ t, Gives r (.push v) (.pushed (.ok ())) t
  push_full : vs.length = n → ∀ v, Gives r (.push v) (.pushed (.error v)) r
  pop : ∀ v ws, vs = v :: ws → ∃ t, Gives r .pop (.popped (some v)) t
  pop_empty : vs = [] → Gives r .pop (.popped none) r
  drop : ∃ t, Answers r (.replicate (vs.length + 1) .pop)
    (vs.map (fun v => .popped (some v)) ++ [.popped none]) t
  items : Holding.items r = vs

theorem Holds.actsAs {r : Ring α} {n f : Nat} {vs : List α} (h : r.Holds n f vs) :
    r.ActsAs n vs where
  le := h.le
  push hlt v := ⟨_, h.gives_push hlt v⟩
  push_full hfull v := h.gives_push_full hfull v
  pop v ws he := by
    subst he
    exact ⟨_, h.gives_pop⟩
  pop_empty he := by
    subst he
    exact h.gives_pop_empty
  drop := h.answers_drop
  items := h.items_eq

theorem Holds.length_toNat {r : Ring α} {n f : Nat} {vs : List α} (h : r.Holds n f vs)
    (hshort : f + vs.length < 2 ^ 64) : r.length.toNat = vs.length := by
  have hback : r.back.toNat = f + vs.length := by rw [h.back, toNat_ofNat hshort]
  have hfront : r.front.toNat = f := by rw [h.front, toNat_ofNat (by omega)]
  rw [Ring.length_toNat (by omega), hback, hfront, h.shaped.capacity, Nat.add_sub_cancel_left,
    Nat.min_eq_left h.le]

theorem serves_as_list (capacity : UInt64) (h : ∃ k, 1 ≤ k ∧ capacity.toNat = 2 ^ k)
    (slotSize : Option UInt64) (cs : List (Request α)) :
    ∃ r t : Ring α, Ring.new capacity slotSize = .ok r ∧
      Answers r cs (serveAll capacity.toNat [] cs).1 t ∧
      t.ActsAs capacity.toNat (serveAll capacity.toNat [] cs).2 ∧
      ((serveAll capacity.toNat [] cs).1.countP Outcome.accepted < 2 ^ 64 →
        t.length.toNat = (serveAll capacity.toNat [] cs).2.length) := by
  obtain ⟨r, hr⟩ := new_isOk (α := α) h slotSize
  obtain ⟨t, g, hanswers, ht, hg⟩ := (holds_new hr).answers cs
  refine ⟨r, t, hr, hanswers, ht.actsAs, fun hlt => ht.length_toNat ?_⟩
  rw [hg]
  simpa using hlt

theorem serves_as_list_pair :
    (∃ k, 1 ≤ k ∧ (2 : UInt64).toNat = 2 ^ k) ∧
      ∃ r t : Ring Nat, Ring.new 2 (some 8) = .ok r ∧
        Answers r [.push 5, .push 6, .push 7, .pop]
          [.pushed (.ok ()), .pushed (.ok ()), .pushed (.error 7), .popped (some 5)] t ∧
        t.ActsAs 2 [6] ∧ (2 < 2 ^ 64 → t.length.toNat = 1) :=
  ⟨⟨1, by decide⟩,
    serves_as_list 2 ⟨1, by decide⟩ (some 8) [.push 5, .push 6, .push 7, .pop]⟩

end WorkStealing.Ring
