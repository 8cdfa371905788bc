import WorkStealing.Proofs.Pool.Lone
import WorkStealing.Proofs.Pool.Sound

namespace WorkStealing.Pool

variable {ι α : Type}

def placed (p : Rings ι α) (i : Nat) (r : Ring (Item ι α)) (t : Item ι α) : Rings ι α :=
  { (p.setQueue i r).note (.queued t.closure.label i) with lastPlaced := i }

/-- What comes of placing `t`: the first queue with room takes it, in the order that starts after
the last one that took a task, or all are full and the task is handed back. -/
inductive Placed (p : Rings ι α) (cap : Nat) (tasks : Nat → List (Item ι α)) (t : Item ι α) :
    Rings ι α → Except (Item ι α) Nat → Prop where
  | first (k i f : Nat) (r : Ring (Item ι α)) (hk : k < p.size)
      (hi : i = (p.lastPlaced + 1 + k) % p.size)
      (full : ∀ j < k, (tasks ((p.lastPlaced + 1 + j) % p.size)).length = cap)
      (room : (tasks i).length < cap) (hr : r.Holds cap f (tasks i ++ [t])) :
    Placed p cap tasks t (placed p i r t) (.ok i)
  | refused (full : ∀ i < p.size, (tasks i).length = cap) : Placed p cap tasks t p (.error t)

variable {p : Rings ι α} {cap : Nat} {tasks : Nat → List (Item ι α)} {t : Item ι α}

theorem Stocked.queue (h : Stocked p cap tasks) {i : Nat} (hi : i < p.size) :
    ∃ (w : Worker (Ring (Item ι α))) (f : Nat), p.workers[i]? = some w ∧
      w.queue.Holds cap f (tasks i) := by
  have hw : p.workers[i]? = some p.workers[i] := List.getElem?_eq_getElem hi
  obtain ⟨f, hf⟩ := h i _ hw
  exact ⟨_, f, hw, hf⟩

theorem Stocked.le (h : Stocked p cap tasks) {i : Nat} (hi : i < p.size) :
    (tasks i).length ≤ cap := by
  obtain ⟨w, f, -, hf⟩ := h.queue hi
  exact hf.le

namespace Push

variable {s k : Nat}

theorem moves_offer (t : Item ι α) (s k : Nat) (r : Ring (Item ι α)) (e : Ring.Push (Item ι α)) :
    Push.moves (p.setQueue ((s + k) % p.size) r) (.offer t s k e) =
      tryPush (p.setQueue ((s + k) % p.size) r) ((s + k) % p.size) e (.offer t s k) fun p' x =>
        match x with
        | .ok _ => .go (p'.note (.queued t.closure.label ((s + k) % p.size)))
            (.record ((s + k) % p.size))
        | .error t =>
          if k + 1 < p'.size then .go p' (.offer t s (k + 1) (.look t)) else .done p' (.error t) := by
  simp only [Push.moves, size_setQueue]
  rfl

theorem passes_full (hs : Stocked p cap tasks) (hn : 0 < p.size)
    (hfull : (tasks ((s + k) % p.size)).length = cap) :
    Passes Push.moves (.go p (.offer t s k (.look t)))
      (if k + 1 < p.size then .go p (.offer t s (k + 1) (.look t)) else .done p (.error t)) := by
  obtain ⟨w, f, hw, hf⟩ := hs.queue (Nat.mod_lt (s + k) hn)
  have hpass := passes_tryPush (moves_offer t s k) hw (hf.passes_push_full hfull t)
  rwa [setQueue_self hw] at hpass

theorem passes_room (hs : Stocked p cap tasks) {i : Nat} (hn : 0 < p.size)
    (hi : i = (s + k) % p.size) (hroom : (tasks i).length < cap) : ∃ f r,
      r.Holds cap f (tasks i ++ [t]) ∧
        Passes Push.moves (.go p (.offer t s k (.look t))) (.done (placed p i r t) (.ok i)) := by
  subst hi
  obtain ⟨w, f, hw, hf⟩ := hs.queue (Nat.mod_lt (s + k) hn)
  have hpass := passes_tryPush (moves_offer t s k) hw (hf.passes_push hroom t)
  exact ⟨f, _, hf.afterPush hroom t, hpass.trans (passes_of_moves rfl)⟩

theorem passes_fulls (hs : Stocked p cap tasks) (hk : k < p.size)
    (hfull : ∀ j < k, (tasks ((s + j) % p.size)).length = cap) :
    Passes Push.moves (.go p (.offer t s 0 (.look t))) (.go p (.offer t s k (.look t))) := by
  induction k with
  | zero => exact .refl _
  | succ k ih =>
    have hpass := ih (by omega) fun j hj => hfull j (by omega)
    have hnext := passes_full (t := t) hs (by omega) (hfull k (by omega))
    rw [if_pos hk] at hnext
    exact hpass.trans hnext

end Push

namespace Push

theorem passes_placed (hs : Stocked p cap tasks) {k i : Nat} (hk : k < p.size)
    (hi : i = (p.lastPlaced + 1 + k) % p.size)
    (hfull : ∀ j < k, (tasks ((p.lastPlaced + 1 + j) % p.size)).length = cap)
    (hroom : (tasks i).length < cap) (t : Item ι α) : ∃ f r, r.Holds cap f (tasks i ++ [t]) ∧
      Passes Push.moves (.go p (.aim t)) (.done (placed p i r t) (.ok i)) := by
  obtain ⟨f, r, hr, hpass⟩ := passes_room (t := t) hs (by omega) hi hroom
  exact ⟨f, r, hr, (passes_of_moves rfl).trans ((passes_fulls hs hk hfull).trans hpass)⟩

theorem passes_refused (hs : Stocked p cap tasks) (hn : 0 < p.size)
    (hfull : ∀ i < p.size, (tasks i).length = cap) (t : Item ι α) :
    Passes Push.moves (.go p (.aim t)) (.done p (.error t)) := by
  have hturn (k : Nat) : (tasks ((p.lastPlaced + 1 + k) % p.size)).length = cap :=
    hfull _ (Nat.mod_lt _ hn)
  have hlast := passes_full (t := t) hs hn (hturn (p.size - 1))
  rw [if_neg (by omega)] at hlast
  have hfirst : Passes Push.moves (.go p (.aim t))
      (.go p (.offer t (p.lastPlaced + 1) 0 (.look t))) := passes_of_moves rfl
  exact hfirst.trans ((passes_fulls hs (by omega) fun j _ => hturn j).trans hlast)

end Push

theorem comesTo_placed (hs : Stocked p cap tasks) (hn : 0 < p.size) (t : Item ι α) :
    ∃ q x, ComesTo Push.moves (.go p (.aim t)) (.done q x) ∧ Placed p cap tasks t q x := by
  by_cases hroom : ∃ k < p.size, (tasks ((p.lastPlaced + 1 + k) % p.size)).length < cap
  · classical
    obtain ⟨hk, hlt⟩ := Nat.find_spec hroom
    have hfull : ∀ j < Nat.find hroom,
        (tasks ((p.lastPlaced + 1 + j) % p.size)).length = cap := by
      intro j hj
      have hge := Nat.find_min hroom hj
      have hle := hs.le (Nat.mod_lt (p.lastPlaced + 1 + j) hn)
      have hjn := hj.trans hk
      omega
    obtain ⟨f, r, hr, hpass⟩ := Push.passes_placed hs hk rfl hfull hlt t
    exact ⟨_, _, hpass.comesTo (.rest trivial), .first _ _ f r hk rfl hfull hlt hr⟩
  · have hfull : ∀ i < p.size, (tasks i).length = cap := by
      intro i hi
      obtain ⟨k, hk, rfl⟩ := exists_add_mod (p.lastPlaced + 1) hi
      have hle := hs.le hi
      have hge : ¬ _ := fun hlt => hroom ⟨k, hk, hlt⟩
      omega
    exact ⟨_, _, (Push.passes_refused hs hn hfull t).comesTo (.rest trivial), .refused hfull⟩

end WorkStealing.Pool
