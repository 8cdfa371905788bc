import WorkStealing.Proofs.Crew.Lone
import WorkStealing.Proofs.Ring.Serial

namespace WorkStealing.Ring.Holds

variable {α : Type} {r : Ring α} {n f : Nat} {v : α} {vs : List α}

theorem passes_push (h : r.Holds n f vs) (hlt : vs.length < n) (v : α) :
    Passes Queue.push.moves (.go r (Push.look v)) (.done (r.afterPush v) (.ok ())) := by
  have hslot := h.slot?_back hlt
  let claimed : Ring α := { r with back := r.back + 1 }
  have hlook : Queue.push.moves r (Push.look v) = [.go r (.inspect v r.back)] := rfl
  have hinspect : Queue.push.moves r (Push.inspect v r.back) = [.go r (.claim v r.back)] := by
    simp [Queue.push, push, Machine.mapResult, Push.moves, hslot, turn_self, Move.embed]
  have hclaim : Queue.push.moves r (Push.claim v r.back) =
      [.go claimed (.write v r.back), .go r (.inspect v r.back)] := by
    simp [Queue.push, push, Machine.mapResult, Push.moves, Move.embed, claimed]
  have hwrite : Queue.push.moves claimed (Push.write v r.back) =
      [.go (claimed.setCell r.back (some v)) (.publish r.back)] := rfl
  have hpublish : Queue.push.moves (claimed.setCell r.back (some v)) (Push.publish r.back) =
      [.done (r.afterPush v) (.ok ())] := rfl
  exact (passes_of_moves hlook).trans <| (passes_of_moves hinspect).trans <|
    (passes_of_retry hclaim (.inl hinspect)).trans <| (passes_of_moves hwrite).trans <|
    passes_of_moves hpublish

theorem passes_push_full (h : r.Holds n f vs) (hfull : vs.length = n) (v : α) :
    Passes Queue.push.moves (.go r (Push.look v)) (.done r (.error v)) := by
  obtain ⟨s, hslot, hturn⟩ := h.slot?_full hfull
  have hlook : Queue.push.moves r (Push.look v) = [.go r (.inspect v r.back)] := rfl
  have hinspect : Queue.push.moves r (Push.inspect v r.back) = [.done r (.error v)] := by
    simp [Queue.push, push, Machine.mapResult, Push.moves, hslot, hturn, Move.embed, Except.map]
  exact (passes_of_moves hlook).trans (passes_of_moves hinspect)

theorem passes_pop (h : r.Holds n f (v :: vs)) :
    Passes Queue.pop.moves (.go r Pop.look) (.done r.afterPop (some v)) := by
  have hslot := h.slot?_front
  let claimed : Ring α := { r with front := r.front + 1 }
  have hread : claimed.slot? r.front = _ := hslot
  have hlook : Queue.pop.moves r Pop.look = [.go r (.inspect r.front)] := rfl
  have hinspect : Queue.pop.moves r (Pop.inspect r.front) = [.go r (.claim r.front)] := by
    simp [Queue.pop, pop, Machine.mapResult, Pop.moves, hslot, turn_self, Move.embed]
  have hclaim : Queue.pop.moves r (Pop.claim r.front) =
      [.go claimed (.read r.front), .go r (.inspect r.front)] := by
    simp [Queue.pop, pop, Machine.mapResult, Pop.moves, Move.embed, claimed]
  have htake : Queue.pop.moves claimed (Pop.read r.front) =
      [.go (claimed.setCell r.front none) (.release r.front v)] := by
    simp [Queue.pop, pop, Machine.mapResult, Pop.moves, hread, Move.embed]
  have hrelease : Queue.pop.moves (claimed.setCell r.front none) (Pop.release r.front v) =
      [.done r.afterPop (some v)] := rfl
  exact (passes_of_moves hlook).trans <| (passes_of_moves hinspect).trans <|
    (passes_of_retry hclaim (.inl hinspect)).trans <| (passes_of_moves htake).trans <|
    passes_of_moves hrelease

theorem passes_pop_empty (h : r.Holds n f []) :
    Passes Queue.pop.moves (.go r Pop.look) (.done r none) := by
  have hlook : Queue.pop.moves r Pop.look = [.go r (.inspect r.front)] := rfl
  have hinspect : Queue.pop.moves r (Pop.inspect r.front) = [.done r none] := by
    simp [Queue.pop, pop, Machine.mapResult, Pop.moves, h.slot?_front_of_nil, turn_succ, Move.embed]
  exact (passes_of_moves hlook).trans (passes_of_moves hinspect)

end WorkStealing.Ring.Holds
