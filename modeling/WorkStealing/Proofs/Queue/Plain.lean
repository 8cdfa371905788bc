import WorkStealing.Proofs.Linked.Disposal
import WorkStealing.Proofs.Ring.Serial
import WorkStealing.Proofs.Ring.Staged

namespace WorkStealing

open Queue (Staged pushing popping)

variable {α : Type}

/-- `room` is how many values there is room for, if there is a limit. -/
structure Queue.Plain (Q : Type) {α E D : Type} [Queue Q α E D] [Staged Q α E D] [Holding Q α]
    (n : Nat) (room : Option Nat) : Prop where
  items {b : Q} {g : Ghost α} {m : Hold → Nat} : Staged.Tracks n b g m → Idle m →
    Holding.items b = g.values.drop g.front
  push {b t : Q} {g : Ghost α} {m : Hold → Nat} {v : α} {x : Except α Unit} :
    Staged.Tracks n b g m → Idle m → Queue.push.Ends b (pushing Q v) t x →
    x = if room.all ((Holding.items b).length < ·) then .ok () else .error v
  pop {b t : Q} {g : Ghost α} {m : Hold → Nat} {x : Option α} : Staged.Tracks n b g m → Idle m →
    Queue.pop.Ends b (popping Q) t x → x = (Holding.items b).head?

namespace Ring

theorem Tracks.holds {r : Ring α} {n : Nat} {g : Ghost α} {m : Hold → Nat} (ht : Tracks r n g m)
    (hm : Idle m) : r.Holds n g.front (g.values.drop g.front) := by
  have hle := ht.front_le
  have hlen : (g.values.drop g.front).length = g.values.length - g.front := List.length_drop
  have hfull : g.values.length - g.front ≤ n := by
    by_contra hc
    have hr := ht.reused (g.front + n) (by omega) (by omega)
    rw [Nat.add_sub_cancel] at hr
    have := (ht.taken_iff g.front).2 (by rw [hr]; decide)
    omega
  refine ⟨ht.shaped, ht.front, ?_, hlen ▸ hfull, fun i v hv => ?_, fun i hi hn => ?_⟩
  · rw [ht.back, hlen, Nat.add_sub_of_le hle]
  · have hi := (List.getElem?_eq_some_iff.1 hv).1
    rw [hlen] at hi
    have hs := ht.orderly.published_of_le hm (p := g.front + i) (by omega) (by omega)
    rw [ht.slot _ ⟨by rw [hs]; decide, ht.reused _ (by omega)⟩, Ghost.slot, hs]
    rw [List.getElem?_drop] at hv
    simp [hv, UInt64.ofNat_add]
  · rw [hlen] at hi
    have hs : g.stage (g.front + i) = .free := by
      have := mt (ht.claimed_iff (g.front + i)).2 (by omega)
      exact Stage.rank_inj (Nat.eq_zero_of_not_pos this)
    have hback (hp : n ≤ g.front + i) : g.stage (g.front + i - n) = .released :=
      ht.orderly.released_of_lt hm (by omega)
    rw [ht.slot _ ⟨by rw [hs]; decide, hback⟩, Ghost.slot, hs]

theorem plain (n : Nat) : Queue.Plain (Ring α) n (some n) where
  items ht hm := (Tracks.holds ht hm).items_eq
  push ht hm he := by
    have h := Tracks.holds ht hm
    rw [h.items_eq, Option.all_some]
    split
    · rename_i hlt
      exact Queue.Outcome.pushed.inj ((h.gives_push (of_decide_eq_true hlt) _ _ _).1 (.push he)).1
    · rename_i hge
      have hfull := h.le.antisymm (Nat.not_lt.1 (by simpa using hge))
      exact Queue.Outcome.pushed.inj ((h.gives_push_full hfull _ _ _).1 (.push he)).1
  pop ht hm he := by
    have h := Tracks.holds ht hm
    rw [h.items_eq]
    generalize hvs : List.drop _ _ = vs at h
    cases vs with
    | nil => exact Queue.Outcome.popped.inj ((h.gives_pop_empty _ _).1 (.pop he)).1
    | cons v vs => exact Queue.Outcome.popped.inj ((h.gives_pop _ _).1 (.pop he)).1

end Ring

namespace Linked

theorem Push.ok_of_done {q t : Linked α} {e : Push α} {x : Except α Nat}
    (h : .done t x ∈ e.moves q) : ∃ a, x = .ok a := by
  cases e with
  | swap w => simp [moves] at h
  | link previous node =>
    simp only [moves] at h
    split at h
    · cases h
    · exact ⟨node, (Move.done.inj (List.mem_singleton.1 h)).2⟩

theorem ok_of_ends {q t : Linked α} {e : Push α} {x : Except α Unit}
    (h : Queue.push.Ends q e t x) : x = .ok () := by
  induction h with
  | go _ _ ih => exact ih
  | done hm =>
    obtain ⟨a, ha, hx⟩ := List.mem_map.1 hm
    cases a with
    | go s p => cases hx
    | done s y =>
      obtain ⟨i, rfl⟩ := Push.ok_of_done ha
      cases hx
      rfl

theorem Tracks.ends_pop {q t : Linked α} {g : Ghost α} {m : Hold → Nat} {x : Option α}
    (ht : Tracks q g m) (hm : Idle m) (h : Queue.pop.Ends q (Queue.popping (Linked α)) t x) :
    x = g.values[g.front]? := by
  have hmoves (q : Linked α) (d : Pop α) : Queue.pop.moves q d =
      (d.moves q).map (.embed id id fun q r => .done q (r.map Prod.snd)) := rfl
  have henter : Queue.popping (Linked α) = Pop.advance := rfl
  rw [henter] at h
  rcases ht.front_cases with hs | h3
  · have hadvance := ht.moves_advance hs
    have hdiscard := (ht.take hs).moves_discard (g.front + 1) g.values[g.front]?
    cases h with
    | done h => simp [hmoves, hadvance, Move.embed] at h
    | go h next =>
      obtain ⟨rfl, rfl⟩ := by simpa [hmoves, hadvance, Move.embed] using h
      cases next with
      | done h =>
        obtain ⟨-, rfl⟩ := by simpa [hmoves, hdiscard, Move.embed] using h
        simp
      | go h next => simp [hmoves, hdiscard, Move.embed] at h
  · have hnone := ht.moves_advance_none h3
    have hback : g.values.length ≤ g.front := Nat.not_lt.1 fun hlt => by
      rw [ht.orderly.published_of_le hm le_rfl hlt] at h3
      exact absurd h3 (by decide)
    rw [List.getElem?_eq_none hback]
    cases h with
    | done h => exact (by simpa [hmoves, hnone, Move.embed] using h : _ ∧ x = none).2
    | go h next => simp [hmoves, hnone, Move.embed] at h

theorem plain (n : Nat) : Queue.Plain (Linked α) n none where
  items ht hm := by
    obtain ⟨r, -, hr⟩ := Tracks.disposes ht hm
    exact congrArg Prod.snd hr
  push _ _ he := ok_of_ends he
  pop {b t g m x} ht hm he := by
    obtain ⟨r, -, hr⟩ := Tracks.disposes ht hm
    have hitems : Holding.items b = g.values.drop g.front := congrArg Prod.snd hr
    rw [hitems, List.head?_drop]
    exact Tracks.ends_pop ht hm he

end Linked

end WorkStealing
