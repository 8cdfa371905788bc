import WorkStealing.Proofs.Pool.History
import WorkStealing.Proofs.Pool.Inline

namespace WorkStealing.Pool

variable {ι α : Type}

def Order.task? (slot : Nat) : Order ι α → Option (Item ι α)
  | .task id layout (.answer v) panic => some ⟨layout, .task id (.answer v) panic (some slot)⟩
  | .task id layout work panic => some ⟨layout, .task id work panic none⟩
  | .range .. => none

/-- What the submission of `o` comes to after `j` others, where the queues of `n` workers, with room
for `cap` tasks each, are dealt to from the one after `l`. -/
inductive Dealt [BEq ι] (n cap l j : Nat) (o : Order ι α) (p q : Rings ι α)
    (tasks tasks' : Nat → List (Item ι α)) : Prop where
  | queued (i : Nat) (t : Item ι α) (hj : j < n * cap) (hi : i = (l + 1 + j) % n)
      (ht : o.task? p.slots.length = some t)
      (ends : ComesTo calls.moves (.go p (Call.submit o).enter) (.done q (.left .returned)))
      (dealt : tasks' = Function.update tasks i (tasks i ++ [t]))
      (last : q.lastPlaced = i) (history : q.history = .queued t.closure.label i :: p.history)
  | inline (hj : n * cap ≤ j)
      (ends : ComesTo calls.moves (.go p (Call.submit o).enter) (.done q (.left o.inlined.2)))
      (same : tasks' = tasks) (aside : Aside p q o.inlined.1)

/-- How many of `j` tasks the `k`-th of `n` queues gets. -/
def level (n j k : Nat) : Nat := j / n + if k < j % n then 1 else 0

structure Even (n cap l j : Nat) (p : Rings ι α) (tasks : Nat → List (Item ι α)) : Prop where
  up : p.aborted = false
  size : p.size = n
  stocked : Stocked p cap tasks
  last : p.lastPlaced = (l + min j (n * cap)) % n
  level : ∀ k < n, (tasks ((l + 1 + k) % n)).length = level n (min j (n * cap)) k

section Level

variable {n j k cap : Nat}

theorem level_eq {q r : Nat} (hr : r < n) :
    level n (n * q + r) k = q + if k < r then 1 else 0 := by
  rw [level, Nat.mul_add_mod, Nat.mod_eq_of_lt hr, Nat.mul_add_div (by omega), Nat.div_eq_of_lt hr,
    Nat.add_zero]

theorem level_succ (hk : k < n) : level n (j + 1) k = level n j k + if k = j % n then 1 else 0 := by
  obtain ⟨q, r, hr, rfl⟩ : ∃ q r, r < n ∧ j = n * q + r :=
    ⟨j / n, j % n, Nat.mod_lt j (by omega), (Nat.div_add_mod j n).symm⟩
  rw [Nat.add_assoc, level_eq hr, Nat.mul_add_mod, Nat.mod_eq_of_lt hr]
  rcases Nat.lt_or_ge (r + 1) n with hlt | hge
  · rw [level_eq hlt]
    split <;> split <;> split <;> omega
  -- the last queue of a round: from here on it starts over
  · obtain rfl : r + 1 = n := by omega
    rw [← Nat.mul_succ, ← Nat.add_zero ((r + 1) * _), level_eq (Nat.succ_pos r)]
    split <;> split <;> split <;> omega

theorem level_le (n j i k : Nat) : level n j i ≤ level n j k + 1 := by
  rw [level, level]
  split <;> omega

theorem level_full (hn : 0 < n) : level n (n * cap) k = cap := by
  rw [← Nat.add_zero (n * cap), level_eq hn, if_neg (by omega), Nat.add_zero]

theorem level_turn : level n j (j % n) = j / n := by
  rw [level, if_neg (by omega), Nat.add_zero]

end Level

theorem turn_eq_iff {n k j : Nat} (l : Nat) (hk : k < n) :
    (l + 1 + k) % n = (l + 1 + j) % n ↔ k = j % n := by
  constructor
  · intro h
    have hkj : k % n = j % n := Nat.ModEq.add_left_cancel' (l + 1) h
    rwa [Nat.mod_eq_of_lt hk] at hkj
  · rintro rfl
    rw [Nat.add_mod_mod]

theorem task?_isSome {o : Order ι α} {a : Nat} (h : (o.task? a).isSome) (b : Nat) :
    ∃ t, o.task? b = some t := by
  rcases o with ⟨id, layout, _ | _ | _ | _, panic⟩ | ⟨id, lo, hi, panic⟩ <;>
    first | exact ⟨_, rfl⟩ | cases h

theorem stocked_new {c : Config} {cores : Nat} {p : Rings ι α} (hp : Pool.new c cores = .ok p) :
    Stocked p c.queueCapacity.toNat fun _ => [] := by
  intro i w hi
  obtain ⟨-, r, hr, hcore⟩ := new_ok hp
  have hqueue : w.queue ∈ (core p).queues := List.mem_map_of_mem (List.mem_of_getElem? hi)
  rw [hcore] at hqueue
  rw [List.eq_of_mem_replicate hqueue]
  exact ⟨0, Ring.holds_new hr⟩

section Run

variable [BEq ι] {n cap l j : Nat} {p : Rings ι α} {tasks : Nat → List (Item ι α)} {o : Order ι α}

theorem embeds_wake (below : List (RingActivity ι α)) (handle? : Option (ι × Nat)) (place : Place) :
    Embeds (Wake.moves (Q := Ring (Item ι α)) (α := α)) calls.moves
      (fun a => Point.land place below (a.embed id (fun w => .stay (.submit (.wake w handle?)))
        fun p _ => .go p (.stay (.submit (Submit.afterInline handle?)))))
      fun p => p.aborted = false := by
  refine embeds_busy (fun _ _ _ => Wake.frame) fun p w => ?_
  rw [Activity.moves, Submit.moves, map_embed_stay]
  refine List.map_congr_left fun a _ => ?_
  cases a <;> rfl

theorem passes_queued {i : Nat} {t : Item ι α} (ha : p.aborted = false)
    (hs : Stocked p cap tasks) (hn : 0 < p.size) (hi : i = (p.lastPlaced + 1) % p.size)
    (hroom : (tasks i).length < cap) (ht : o.task? p.slots.length = some t) : ∃ q,
    Passes calls.moves (.go p (Call.submit o).enter) (.done q (.left .returned)) ∧
      q.aborted = false ∧ q.size = p.size ∧
      Stocked q cap (Function.update tasks i (tasks i ++ [t])) ∧ q.lastPlaced = i ∧
      q.history = .queued t.closure.label i :: p.history := by
  obtain ⟨slots, handle?, hbegin⟩ : ∃ slots handle?,
      (Activity.submit (.begin o)).moves .caller p =
        [.go { p with slots } (.stay (.submit (.push (.aim t) handle?)))] := by
    rcases o with ⟨id, layout, work, panic⟩ | ⟨id, lo, hi, panic⟩
    · cases work with
      | answer v =>
        obtain rfl := Option.some.inj ht
        exact ⟨p.slots ++ [({} : ResultSlot α)], some (id, p.slots.length), rfl⟩
      | nothing | hold | spawn _ =>
        obtain rfl := Option.some.inj ht
        exact ⟨p.slots, none, rfl⟩
    · cases ht
  obtain ⟨f, r, hr, hpush⟩ := Push.passes_placed (p := { p with slots }) (k := 0)
    (hs.of_workers rfl) hn hi (fun j hj => absurd hj (Nat.not_lt_zero j)) hroom t
  have hpushed := hpush.map (embeds_push [] handle? .caller) ha
  obtain ⟨g, m, hwake, -⟩ := passes_wake (placed { p with slots } i r t) 1
  have hwoken := hwake.map (embeds_wake [] handle? .caller) ha
  obtain ⟨q, hq, slots', handles, rfl⟩ := passes_resume []
    (p := { placed { p with slots } i r t with gate := g, semaphorePosts := m }) ha handle? .returned
  refine ⟨_, (passes_stay ha hbegin).trans (hpushed.trans (hwoken.trans hq)), ha, ?_, ?_, rfl, rfl⟩
  · exact size_setQueue _ _ r
  · exact (hs.setQueue hr).of_workers rfl

theorem Even.step (h : Even n cap l j p tasks) (hn : 0 < n) (ho : (o.task? 0).isSome) :
    ∃ q tasks', Dealt n cap l j o p q tasks tasks' ∧ Even n cap l (j + 1) q tasks' := by
  obtain ⟨t, ht⟩ := task?_isSome ho p.slots.length
  obtain rfl := h.size
  have hlast := h.last
  have hlevel := h.level
  rcases Nat.lt_or_ge j (p.size * cap) with hj | hj
  · rw [Nat.min_eq_left hj.le] at hlast hlevel
    have hturn := Nat.mod_lt j hn
    have hi : (l + 1 + j) % p.size = (p.lastPlaced + 1) % p.size := by
      rw [hlast, Nat.mod_add_mod, Nat.add_right_comm]
    have hroom : (tasks ((l + 1 + j) % p.size)).length < cap := by
      rw [← (turn_eq_iff l hturn).2 rfl, hlevel _ hturn, level_turn]
      exact Nat.div_lt_of_lt_mul hj
    obtain ⟨q, hq, hup, hsize, hstocked, hplaced, hhistory⟩ :=
      passes_queued h.up h.stocked hn hi hroom ht
    refine ⟨q, _, .queued _ t hj rfl ht (hq.comesTo (.rest trivial)) rfl hplaced hhistory,
      hup, hsize, hstocked, ?_, fun k hk => ?_⟩
    · rw [hplaced, Nat.min_eq_left hj, Nat.add_right_comm, Nat.add_assoc]
    · rw [Nat.min_eq_left hj, level_succ hk, Function.update_apply]
      split
      · rename_i he
        rw [if_pos ((turn_eq_iff l hk).1 he), List.length_append, ← he, hlevel k hk]
        rfl
      · rename_i he
        rw [if_neg (mt (turn_eq_iff l hk).2 he), hlevel k hk, Nat.add_zero]
  · rw [Nat.min_eq_right hj] at hlast hlevel
    have hfull : ∀ i < p.size, (tasks i).length = cap := by
      intro i hi
      obtain ⟨k, hk, rfl⟩ := exists_add_mod (l + 1) hi
      rw [hlevel k hk, level_full hn]
    obtain ⟨q, hq, haside⟩ := passes_inlined o ⟨h.up, hn, tasks, h.stocked, hfull⟩ []
    refine ⟨q, tasks, .inline hj (hq.comesTo (.rest trivial)) rfl haside, ?_⟩
    obtain ⟨slots, handles, rfl⟩ := haside
    have hmin : min (j + 1) (p.size * cap) = p.size * cap := Nat.min_eq_right (by omega)
    refine ⟨h.up, rfl, h.stocked.of_workers rfl, ?_, ?_⟩
    · rw [hmin]
      exact hlast
    · rw [hmin]
      exact hlevel

theorem Even.run (h : Even n cap l j p tasks) (hn : 0 < n) (os : List (Order ι α))
    (hos : ∀ o ∈ os, (o.task? 0).isSome) : ∃ (ps : Nat → Rings ι α)
    (ts : Nat → Nat → List (Item ι α)), ps 0 = p ∧ ts 0 = tasks ∧
      (∀ i ≤ os.length, Even n cap l (j + i) (ps i) (ts i)) ∧
      ∀ i (hi : i < os.length), Dealt n cap l (j + i) os[i] (ps i) (ps (i + 1)) (ts i) (ts (i + 1)) := by
  induction os generalizing j p tasks with
  | nil =>
    refine ⟨fun _ => p, fun _ => tasks, rfl, rfl, fun i hi => ?_, fun i hi => absurd hi (by simp)⟩
    obtain rfl := Nat.le_zero.1 hi
    exact h
  | cons o os ih =>
    obtain ⟨q, tasks', hdealt, heven⟩ := h.step hn (hos o List.mem_cons_self)
    obtain ⟨ps, ts, hp, ht, hevens, hdealts⟩ := ih heven fun o ho => hos o (List.mem_cons_of_mem _ ho)
    refine ⟨fun i => i.casesOn p ps, fun i => i.casesOn tasks ts, rfl, rfl, ?_, ?_⟩
    · rintro (_ | i) hi
      · exact h
      · have := hevens i (Nat.le_of_succ_le_succ hi)
        rwa [Nat.add_assoc, Nat.add_comm 1] at this
    · rintro (_ | i) hi
      · simp only [hp, ht]
        exact hdealt
      · have := hdealts i (Nat.lt_of_succ_lt_succ hi)
        rwa [Nat.add_assoc, Nat.add_comm 1] at this

theorem places_in_turn (hs : Stocked p cap tasks) (hn : 0 < p.size) (hl : p.lastPlaced < p.size)
    (ha : p.aborted = false) :
    (∀ t, ∃ q x, ComesTo Push.moves (.go p (.aim t)) (.done q x) ∧ Placed p cap tasks t q x) ∧
      ((∀ i < p.size, tasks i = []) → ∀ os : List (Order ι α), (∀ o ∈ os, (o.task? 0).isSome) →
        ∃ (ps : Nat → Rings ι α) (ts : Nat → Nat → List (Item ι α)), ps 0 = p ∧ ts 0 = tasks ∧
          (∀ j ≤ os.length, (ps j).size = p.size ∧ Stocked (ps j) cap (ts j) ∧
            ∀ i k, i < p.size → k < p.size → (ts j i).length ≤ (ts j k).length + 1) ∧
          ∀ j (hj : j < os.length), Dealt p.size cap p.lastPlaced j os[j] (ps j) (ps (j + 1)) (ts j)
            (ts (j + 1))) := by
  refine ⟨comesTo_placed hs hn, fun hempty os hos => ?_⟩
  have heven : Even p.size cap p.lastPlaced 0 p tasks := by
    refine ⟨ha, rfl, hs, ?_, fun k hk => ?_⟩
    · rw [Nat.zero_min, Nat.add_zero, Nat.mod_eq_of_lt hl]
    · rw [hempty _ (Nat.mod_lt _ hn), Nat.zero_min, level, Nat.zero_div, Nat.zero_mod, if_neg (by omega)]
      rfl
  obtain ⟨ps, ts, hp, ht, hevens, hdealts⟩ := heven.run hn os hos
  refine ⟨ps, ts, hp, ht, fun j hj => ?_, fun j hj => ?_⟩
  · have h := hevens j hj
    refine ⟨h.size, h.stocked, fun i k hi hk => ?_⟩
    obtain ⟨x, hx, rfl⟩ := exists_add_mod (p.lastPlaced + 1) hi
    obtain ⟨y, hy, rfl⟩ := exists_add_mod (p.lastPlaced + 1) hk
    rw [h.level x hx, h.level y hy]
    exact level_le _ _ x y
  · have h := hdealts j hj
    rwa [Nat.zero_add] at h

/-- Two workers with room for two tasks each, and a fifth task that has to run inline. -/
theorem places_in_turn_twice_two : ∃ p : Rings Nat Unit,
    Pool.new { workerCount := some 2, queueCapacity := 2 } 0 = .ok p ∧
      Stocked p 2 (fun _ => []) ∧ 0 < p.size ∧ p.lastPlaced < p.size ∧ p.aborted = false ∧
      ∃ (ps : Nat → Rings Nat Unit) (ts : Nat → Nat → List (Item Nat Unit)), ps 0 = p ∧
        (ts 4 0).length ≤ (ts 4 1).length + 1 ∧
        Dealt 2 2 1 0 (.task 0 .small .nothing none) p (ps 1) (fun _ => []) (ts 1) ∧
        Dealt 2 2 1 4 (.task 4 .small .nothing none) (ps 4) (ps 5) (ts 4) (ts 5) := by
  obtain ⟨p, hp, hsize, hlast, hup⟩ : ∃ p : Rings Nat Unit,
      Pool.new { workerCount := some 2, queueCapacity := 2 } 0 = .ok p ∧ p.size = 2 ∧
        p.lastPlaced = 1 ∧ p.aborted = false := ⟨_, rfl, rfl, rfl, rfl⟩
  have hs : Stocked p 2 fun _ => [] := stocked_new hp
  have hn : 0 < p.size := by omega
  have hl : p.lastPlaced < p.size := by omega
  let os : List (Order Nat Unit) := (List.range 5).map fun i => .task i .small .nothing none
  obtain ⟨ps, ts, h0, ht, heven, hdealt⟩ := (places_in_turn hs hn hl hup).2 (fun _ _ => rfl) os
    (by simp [os, Order.task?])
  rw [hsize, hlast] at hdealt
  have hfirst := hdealt 0 (by decide)
  rw [h0, ht] at hfirst
  refine ⟨p, hp, hs, hn, hl, hup, ps, ts, h0, ?_, hfirst, hdealt 4 (by decide)⟩
  exact (heven 4 (by decide)).2.2 0 1 hn (by omega)

end Run

end WorkStealing.Pool
