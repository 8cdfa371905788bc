import WorkStealing.Proofs.Gate.Balance
import WorkStealing.Proofs.Pool.Scene

namespace WorkStealing.Pool

variable {ι α : Type} {p : Rings ι α} {w : Nat} (cap : Nat) {d : Scene ι α}

def Scene.lane (d : Scene ι α) (n w k : Nat) : List (Item ι α) := d.tasks ((w + k) % n)

def Scene.found (d : Scene ι α) (n w k : Nat) (t : Item ι α) (ts : List (Item ι α)) : Scene ι α :=
  ((d.count { trySteals := k, steals := if k = 0 then 0 else 1 }).setTasks ((w + k) % n) ts).note
    (.taken t.closure.label w ((w + k) % n))

theorem Scene.count_count (d : Scene ι α) (a b : Stats) :
    (d.count a).count b = d.count (a + b) := by
  simp only [Scene.count, add_assoc]

theorem Scene.count_zero (d : Scene ι α) : d.count 0 = d := by
  simp only [Scene.count, add_zero]

section Steal

variable {k m : Nat}

def Steal.seen (w n k : Nat) (q : Rings ι α) :
    Option (Item ι α) → Move (Rings ι α) (Steal (Ring.Pop (Item ι α)) ι α) (Option (Item ι α))
  | some t => .go (q.note (.taken t.closure.label w ((w + k) % n))) (.count t)
  | none => .go q (.next (k + 1))

theorem Steal.moves_try (q : Rings ι α) (hq : q.size = p.size) (c : Ring.Pop (Item ι α)) :
    Steal.moves w q (.try k c) =
      tryPop q ((w + k) % p.size) c (.try k) (Steal.seen w p.size k) := by
  simp only [Steal.moves, hq]
  congr

theorem leads_next (hk : k < p.size) :
    Leads p w cap (Steal.moves w) d (.next k) (d.count { trySteals := 1 })
      fun q => .go q (.try k .look) := by
  refine leads_of_moves fun q h => ⟨?_, h.bump fun _ => rfl⟩
  simp only [Steal.moves, h.size, hk, if_true]
  rfl

theorem leads_skip (hk : k ≤ m) (hm : m ≤ p.size)
    (hempty : ∀ j, k ≤ j → j < m → d.lane p.size w j = []) :
    Leads p w cap (Steal.moves w) d (.next k) (d.count { trySteals := m - k })
      fun q => .go q (.next m) := by
  induction m, hk using Nat.le_induction with
  | base =>
    rw [Nat.sub_self]
    exact d.count_zero.symm ▸ .refl d _
  | succ m hkm ih =>
    have hskip := ih (by omega) fun j hj hjm => hempty j hj (by omega)
    have hnext := leads_next cap (w := w) (d := d.count { trySteals := m - k }) (k := m)
      (p := p) (by omega)
    have hmiss := leads_miss cap (p := p) (d := (d.count { trySteals := m - k }).count
      { trySteals := 1 }) (w := w) (f := Steal.moves w) (.try m) (Steal.seen w p.size m)
      (Nat.mod_lt _ (by omega)) (hempty m hkm (by omega)) fun q c hq => Steal.moves_try q hq c
    rw [Nat.succ_sub hkm]
    have htotal := hskip.trans (hnext.trans hmiss)
    rwa [Scene.count_count] at htotal

theorem leads_pass (hw : w < p.size) (hempty : ∀ k, d.lane p.size w k = []) :
    Leads p w cap (Steal.moves w) d .start (d.count { trySteals := p.size - 1 })
      fun q => .done q none := by
  refine (leads_skip cap (m := p.size) (by omega) le_rfl fun j _ _ => hempty j).trans ?_
  refine leads_of_moves fun q h => ⟨?_, h⟩
  simp only [Steal.moves, h.size, Nat.lt_irrefl, if_false]

theorem leads_theft {t : Item ι α} {ts : List (Item ι α)} (hk : 0 < k) (hkn : k < p.size)
    (hempty : ∀ j < k, d.lane p.size w j = []) (hlane : d.lane p.size w k = t :: ts) :
    Leads p w cap (Steal.moves w) d .start (d.found p.size w k t ts) fun q => .done q (some t) := by
  obtain ⟨k, rfl⟩ := Nat.exists_eq_succ_of_ne_zero hk.ne'
  have hskip := leads_skip cap (p := p) (w := w) (d := d) (k := 1) (m := k + 1) hk hkn.le
    fun j _ hj => hempty j hj
  have hnext := leads_next cap (w := w) (d := d.count { trySteals := k }) hkn
  have hhit := leads_hit cap (p := p) (w := w) (f := Steal.moves w)
    (d := (d.count { trySteals := k }).count { trySteals := 1 }) (.try (k + 1))
    (Steal.seen w p.size (k + 1)) (Nat.mod_lt _ (by omega)) hlane fun q c hq => Steal.moves_try q hq c
  have htaken : Leads p w cap (Steal.moves w) _ (.try (k + 1) .look) _ fun q => .go q (.count t) :=
    hhit.weave fun q h => h.note (.taken t.closure.label w ((w + (k + 1)) % p.size))
  refine (hskip.trans (hnext.trans htaken)).trans (leads_of_moves fun q h => ⟨rfl, ?_⟩)
  have hfound : d.found p.size w (k + 1) t ts =
      (((((d.count { trySteals := k }).count { trySteals := 1 }).setTasks ((w + (k + 1)) % p.size)
        ts).note (.taken t.closure.label w ((w + (k + 1)) % p.size))).count { steals := 1 }) := by
    simp only [Scene.found, Scene.count, Scene.setTasks, Scene.note, add_assoc]
    rfl
  rw [hfound]
  exact h.bump fun _ => rfl

end Steal

section Recheck

variable {k : Nat} {t : Item ι α} {ts : List (Item ι α)}

theorem Scene.lane_zero (d : Scene ι α) {n w : Nat} (hw : w < n) : d.lane n w 0 = d.tasks w := by
  rw [lane, Nat.add_zero, Nat.mod_eq_of_lt hw]

theorem leads_own_empty (hw : w < p.size) (hrun : p.phase? w = some .running)
    (hempty : d.lane p.size w 0 = []) :
    Leads p w cap (Recheck.moves w) d .phase d fun q => .go q (.steal .start) := by
  have hphase : Leads p w cap (Recheck.moves w) d .phase d fun q => .go q (.own .look) := by
    refine leads_of_moves fun q h => ⟨?_, h⟩
    simp only [Recheck.moves, h.phase?, hrun, if_true]
    rfl
  rw [d.lane_zero hw] at hempty
  exact hphase.trans (leads_own_miss cap Recheck.own (fun q t => .done q (some (.task t)))
    (fun q => .go q (.steal .start)) hw hempty fun q c => rfl)

theorem embeds_recheck : Embeds (Steal.moves w) (Recheck.moves w)
    (Move.embed id (Recheck.steal (ι := ι) (α := α)) fun (q : Rings ι α) t => .done q (t.map .task))
    fun _ => True :=
  ⟨fun _ _ _ _ _ => trivial, fun _ _ _ => ⟨_, _, rfl, rfl⟩⟩

theorem leads_recheck_pass (hw : w < p.size) (hrun : p.phase? w = some .running)
    (hempty : ∀ k, d.lane p.size w k = []) :
    Leads p w cap (Recheck.moves w) d .phase (d.count { trySteals := p.size - 1 })
      fun q => .done q none :=
  (leads_own_empty cap hw hrun (hempty 0)).trans
    ((leads_pass cap hw hempty).map embeds_recheck (fun _ _ => trivial) fun _ => rfl)

theorem leads_recheck_theft (hw : w < p.size) (hrun : p.phase? w = some .running) (hk : 0 < k)
    (hkn : k < p.size) (hempty : ∀ j < k, d.lane p.size w j = [])
    (hlane : d.lane p.size w k = t :: ts) :
    Leads p w cap (Recheck.moves w) d .phase (d.found p.size w k t ts)
      fun q => .done q (some (.task t)) :=
  (leads_own_empty cap hw hrun (hempty 0 hk)).trans
    ((leads_theft cap hk hkn hempty hlane).map embeds_recheck (fun _ _ => trivial) fun _ => rfl)

end Recheck

section Sleep

variable {k : Nat} {t : Item ι α} {ts : List (Item ι α)}

theorem leads_declare : Leads p w cap (Gate.Sleep.moves (recheck w)) d .declare
    (d.setGate d.gate.enter) fun q => .go q (.recheck .phase) := by
  refine leads_of_moves fun q h => ⟨rfl, ?_⟩
  have hg : Gated.gate q = d.gate := h.gate
  rw [hg]
  exact h.setGate _

theorem leads_retract (f : Finding ι α) : Leads p w cap (Gate.Sleep.moves (recheck w)) d
    (.retract f) (d.setGate d.gate.leave) fun q => .done q (some f) := by
  refine leads_of_moves fun q h => ⟨rfl, ?_⟩
  have hg : Gated.gate q = d.gate := h.gate
  rw [hg]
  exact h.setGate _

theorem embeds_sleep : Embeds (Recheck.moves w) (Gate.Sleep.moves (recheck w))
    (Move.embed id Gate.Sleep.recheck fun (q : Rings ι α) (found : Option (Finding ι α)) =>
      match found with
      | some f => .go q (.retract f)
      | none => .go q (.wait .subtract)) fun _ => True := by
  refine ⟨fun _ _ _ _ _ => trivial, fun _ _ _ => ⟨_, _, rfl, ?_⟩⟩
  refine List.map_congr_left fun a _ => ?_
  rcases a with _ | ⟨_, _ | _⟩ <;> rfl

theorem leads_sleep_theft (hw : w < p.size) (hrun : p.phase? w = some .running) (hk : 0 < k)
    (hkn : k < p.size) (hempty : ∀ j < k, d.lane p.size w j = [])
    (hlane : d.lane p.size w k = t :: ts) :
    Leads p w cap (Gate.Sleep.moves (recheck w)) d .declare (d.found p.size w k t ts)
      fun q => .done q (some (.task t)) := by
  have htheft := leads_recheck_theft cap (d := d.setGate d.gate.enter) hw hrun hk hkn
    hempty hlane
  have hback := htheft.map embeds_sleep (fun _ _ => trivial) fun _ => rfl
  exact (leads_declare cap).trans (hback.trans (leads_retract cap (.task t)))

theorem leads_sleep_pass (hw : w < p.size) (hrun : p.phase? w = some .running)
    (hempty : ∀ k, d.lane p.size w k = []) :
    Leads p w cap (Gate.Sleep.moves (recheck w)) d .declare
      ((d.setGate d.gate.enter).count { trySteals := p.size - 1 })
      fun q => .go q (.wait .subtract) := by
  have hpass := leads_recheck_pass cap (d := d.setGate d.gate.enter) hw hrun hempty
  exact (leads_declare cap).trans (hpass.map embeds_sleep (fun _ _ => trivial) fun _ => rfl)

def Gate.taken (g : Gate) : Gate :=
  g.setSemaphore { g.semaphore with count := g.semaphore.count - 1 }

theorem leads_wait (hpos : 0 < d.gate.semaphore.count) :
    Leads p w cap (Gate.Sleep.moves (recheck w)) d (.wait .subtract) (d.setGate (Gate.taken d.gate).leave)
      fun q => .done q none := by
  have hsub : Leads p w cap (Gate.Sleep.moves (recheck w)) d (.wait .subtract)
      (d.setGate (Gate.taken d.gate)) fun q => .go q .wake := by
    refine leads_of_moves (g := fun q => Gated.setGate q (Gate.taken d.gate)) fun q h =>
      ⟨?_, h.setGate _⟩
    have hg : Gated.gate q = d.gate := h.gate
    simp only [Gate.Sleep.moves, hg, Semaphore.Wait.moves, if_neg (Int64.not_le.2 hpos)]
    rfl
  refine hsub.trans (leads_of_moves fun q h => ⟨rfl, ?_⟩)
  have hg : Gated.gate q = Gate.taken d.gate := h.gate
  rw [hg]
  exact h.setGate _

theorem leads_sink (hpos : d.gate.semaphore.count ≤ 0) :
    Leads p w cap (Gate.Sleep.moves (recheck w)) d (.wait .subtract) (d.setGate (Gate.taken d.gate))
      fun q => .go q (.wait .acquire) := by
  refine leads_of_moves (g := fun q => Gated.setGate q (Gate.taken d.gate)) fun q h =>
    ⟨?_, h.setGate _⟩
  have hg : Gated.gate q = d.gate := h.gate
  simp only [Gate.Sleep.moves, hg, Semaphore.Wait.moves, if_pos hpos]
  rfl

end Sleep

section Search

variable {k : Nat} {t : Item ι α} {ts : List (Item ι α)}

theorem leads_look (hrun : p.phase? w = some .running) :
    Leads p w cap (Search.moves w) d .look d fun q => .go q (.own .look) := by
  refine leads_of_moves fun q h => ⟨?_, h⟩
  simp only [Search.moves, h.phase?, hrun, if_true]
  rfl

theorem leads_look_own (hw : w < p.size) (hrun : p.phase? w = some .running)
    (htask : d.tasks w = t :: ts) : Leads p w cap (Search.moves w) d .look
      ((d.setTasks w ts).note (.taken t.closure.label w w)) fun q => .done q (.task t) :=
  (leads_look cap hrun).trans (leads_own_hit cap Search.own (fun q t => .done q (Finding.task t))
    (fun q => .go q (.spin q.spinCount)) hw htask fun _ _ => rfl)

theorem leads_look_spin (hw : w < p.size) (hrun : p.phase? w = some .running)
    (hempty : d.lane p.size w 0 = []) :
    Leads p w cap (Search.moves w) d .look d fun q => .go q (.spin p.spinCount) := by
  rw [d.lane_zero hw] at hempty
  have hmiss := leads_own_miss cap (f := Search.moves w) Search.own
    (fun q t => .done q (Finding.task t)) (fun q => .go q (.spin q.spinCount)) hw hempty fun _ _ => rfl
  exact (leads_look cap hrun).trans (hmiss.congr fun q h => by rw [h.spinCount])

theorem embeds_steal (left : Nat) : Embeds (Steal.moves w) (Search.moves w)
    (Move.embed id (Search.steal left) fun (q : Rings ι α) t =>
      match t with
      | some t => .done q (.task t)
      | none => .go q (.spin left)) fun _ => True := by
  refine ⟨fun _ _ _ _ _ => trivial, fun _ _ _ => ⟨_, _, rfl, ?_⟩⟩
  refine List.map_congr_left fun a _ => ?_
  rcases a with _ | ⟨_, _ | _⟩ <;> rfl

theorem embeds_search_sleep : Embeds (Gate.Sleep.moves (recheck w)) (Search.moves w)
    (Move.embed id Search.sleep fun (q : Rings ι α) found =>
      match found with
      | some (.task t) => .done q (.task t)
      | some .stop => .go q .look
      | none => .go q .count) fun _ => True := by
  refine ⟨fun _ _ _ _ _ => trivial, fun _ _ _ => ⟨_, _, rfl, ?_⟩⟩
  refine List.map_congr_left fun a _ => ?_
  rcases a with _ | ⟨_, _ | _ | _⟩ <;> rfl

theorem leads_spin (hw : w < p.size) (hempty : ∀ k, d.lane p.size w k = []) (left : Nat) :
    Leads p w cap (Search.moves w) d (.spin left) (d.count { trySteals := left * (p.size - 1) })
      fun q => .go q (.sleep .declare) := by
  induction left generalizing d with
  | zero =>
    rw [Nat.zero_mul]
    exact leads_of_moves fun q h => ⟨rfl, d.count_zero.symm ▸ h⟩
  | succ left ih =>
    have hstart : Leads p w cap (Search.moves w) d (.spin (left + 1)) d
        fun q => .go q (.steal left .start) := leads_of_moves fun q h => ⟨rfl, h⟩
    have hpass := (leads_pass cap hw hempty).map (embeds_steal left) (fun _ _ => trivial)
      fun _ => rfl
    have hrest := ih (d := d.count { trySteals := p.size - 1 }) hempty
    rw [Scene.count_count] at hrest
    rw [Nat.succ_mul, Nat.add_comm (left * _)]
    exact hstart.trans (hpass.trans hrest)

theorem leads_find (hw : w < p.size) (hrun : p.phase? w = some .running) (hk : k < p.size)
    (hempty : ∀ j < k, d.lane p.size w j = []) (hlane : d.lane p.size w k = t :: ts) :
    Leads p w cap (Search.moves w) d .look (d.found p.size w k t ts)
      fun q => .done q (.task t) := by
  rcases Nat.eq_zero_or_pos k with rfl | hpos
  · have hown := leads_look_own cap hw hrun ((d.lane_zero hw).symm.trans hlane)
    have hfound : d.found p.size w 0 t ts =
        (d.setTasks w ts).note (.taken t.closure.label w w) := by
      rw [Scene.found, Nat.add_zero, Nat.mod_eq_of_lt hw, if_pos rfl]
      exact congrArg (fun e : Scene ι α => (e.setTasks w ts).note (.taken t.closure.label w w))
        d.count_zero
    exact hfound ▸ hown
  · have hspin := leads_look_spin cap hw hrun (hempty 0 hpos)
    generalize p.spinCount = left at hspin
    cases left with
    | zero =>
      have hsleep : Leads p w cap (Search.moves w) d (.spin 0) d fun q => .go q (.sleep .declare) :=
        leads_of_moves fun q h => ⟨rfl, h⟩
      exact hspin.trans (hsleep.trans ((leads_sleep_theft cap hw hrun hpos hk hempty hlane).map
        embeds_search_sleep (fun _ _ => trivial) fun _ => rfl))
    | succ left =>
      have hstart : Leads p w cap (Search.moves w) d (.spin (left + 1)) d
          fun q => .go q (.steal left .start) := leads_of_moves fun q h => ⟨rfl, h⟩
      exact hspin.trans (hstart.trans ((leads_theft cap hpos hk hempty hlane).map (embeds_steal left)
        (fun _ _ => trivial) fun _ => rfl))

theorem leads_nothing (hw : w < p.size) (hrun : p.phase? w = some .running)
    (hempty : ∀ k, d.lane p.size w k = []) : Leads p w cap (Search.moves w) d .look
      ((d.count { trySteals := (p.spinCount + 1) * (p.size - 1) }).setGate d.gate.enter)
      fun q => .go q (.sleep (.wait .subtract)) := by
  have hspin := (leads_look_spin cap hw hrun (hempty 0)).trans
    (leads_spin cap hw hempty p.spinCount)
  have hsleep := (leads_sleep_pass cap
    (d := d.count { trySteals := p.spinCount * (p.size - 1) }) hw hrun hempty).map
    embeds_search_sleep (fun _ _ => trivial) fun _ => rfl
  have htotal := hspin.trans hsleep
  rw [Nat.succ_mul]
  have hscene : ((d.count { trySteals := p.spinCount * (p.size - 1) }).setGate d.gate.enter).count
      { trySteals := p.size - 1 } = (d.count
        { trySteals := p.spinCount * (p.size - 1) + (p.size - 1) }).setGate d.gate.enter := by
    simp only [Scene.count, Scene.setGate, add_assoc]
    rfl
  exact hscene ▸ htotal

theorem leads_round (hw : w < p.size) (hrun : p.phase? w = some .running)
    (hempty : ∀ k, d.lane p.size w k = []) (hpos : 0 < d.gate.semaphore.count) :
    Leads p w cap (Search.moves w) d .look
      ((d.count { trySteals := (p.spinCount + 1) * (p.size - 1), semaphoreWaits := 1 }).setGate
        (Gate.taken d.gate)) fun q => .go q .look := by
  have hwait := (leads_wait cap (w := w) (p := p) (d := (d.count
    { trySteals := (p.spinCount + 1) * (p.size - 1) }).setGate d.gate.enter) hpos).map
    embeds_search_sleep (fun _ _ => trivial) fun _ => rfl
  refine ((leads_nothing cap hw hrun hempty).trans hwait).trans (leads_of_moves fun q h => ⟨rfl, ?_⟩)
  have hbump := h.bump (f := fun c => { c with semaphoreWaits := c.semaphoreWaits + 1 })
    (s := { semaphoreWaits := 1 }) fun _ => rfl
  have hscene : (d.count { trySteals := (p.spinCount + 1) * (p.size - 1), semaphoreWaits := 1 }).setGate
      (Gate.taken d.gate) = (((d.count { trySteals := (p.spinCount + 1) * (p.size - 1) }).setGate
        d.gate.enter).setGate (Gate.taken d.gate.enter).leave).count { semaphoreWaits := 1 } := by
    simp only [Scene.count, Scene.setGate, add_assoc]
    rfl
  exact hscene ▸ hbump

theorem leads_asleep (hw : w < p.size) (hrun : p.phase? w = some .running)
    (hempty : ∀ k, d.lane p.size w k = []) (hnone : d.gate.semaphore.count ≤ 0) :
    Leads p w cap (Search.moves w) d .look
      ((d.count { trySteals := (p.spinCount + 1) * (p.size - 1) }).setGate
        (Gate.taken d.gate.enter)) fun q => .go q (.sleep (.wait .acquire)) := by
  have hsink := (leads_sink cap (w := w) (p := p) (d := (d.count
    { trySteals := (p.spinCount + 1) * (p.size - 1) }).setGate d.gate.enter) hnone).map
    embeds_search_sleep (fun _ _ => trivial) fun _ => rfl
  exact (leads_nothing cap hw hrun hempty).trans hsink

theorem leads_rounds {b : Nat} (hw : w < p.size) (hrun : p.phase? w = some .running)
    (hempty : ∀ k, d.lane p.size w k = []) (hb : d.gate.semaphore.count.toInt = b) :
    Leads p w cap (Search.moves w) d .look
      { d with
        counters := d.counters +
          { trySteals := (b + 1) * ((p.spinCount + 1) * (p.size - 1)), semaphoreWaits := b }
        gate := ⟨d.gate.sleepers + 1, ⟨-1, d.gate.semaphore.permits⟩⟩ }
      fun q => .go q (.sleep (.wait .acquire)) := by
  induction b generalizing d with
  | zero =>
    have hcount : d.gate.semaphore.count = 0 := Int64.toInt_inj.1 hb
    have hasleep := leads_asleep cap hw hrun hempty (hcount ▸ Int64.le_refl 0)
    rw [Gate.taken, Gate.setSemaphore, Gate.enter, hcount] at hasleep
    rw [Nat.zero_add, Nat.one_mul]
    exact hasleep
  | succ b ih =>
    have hpos : 0 < d.gate.semaphore.count := by
      rw [Int64.lt_iff_toInt_lt, hb]
      exact Int.natCast_pos.2 b.succ_pos
    have hfits : Fits (d.gate.semaphore.count.toInt - 1) := by
      have hlt := Int64.toInt_lt d.gate.semaphore.count
      rw [hb] at hlt ⊢
      exact ⟨by omega, by omega⟩
    let round : Stats :=
      { trySteals := (p.spinCount + 1) * (p.size - 1), semaphoreWaits := 1 }
    have hround := leads_round cap hw hrun hempty hpos
    have hleft : (Gate.taken d.gate).semaphore.count.toInt = b := by
      have hsub := Semaphore.toInt_sub_one hfits
      rw [hb, Nat.cast_succ, Int.add_sub_cancel] at hsub
      exact hsub
    have hrest := ih (d := (d.count round).setGate (Gate.taken d.gate)) hempty hleft
    have htotal := hround.trans hrest
    simp only [Scene.count, Scene.setGate, add_assoc] at htotal
    have hsum : ({ trySteals := (b + 1 + 1) * ((p.spinCount + 1) * (p.size - 1))
                   semaphoreWaits := b + 1 } : Stats) = round +
          { trySteals := (b + 1) * ((p.spinCount + 1) * (p.size - 1)), semaphoreWaits := b } := by
      rw [Nat.succ_mul (b + 1), Nat.add_comm (_ * _), Nat.add_comm b]
      rfl
    rw [hsum]
    exact htotal

end Search

end WorkStealing.Pool
