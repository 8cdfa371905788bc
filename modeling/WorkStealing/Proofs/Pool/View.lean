import WorkStealing.Pool.Thread
import WorkStealing.Proofs.Gate.Balance
import WorkStealing.Proofs.Crew.Run

namespace WorkStealing.Pool

variable {ι α β : Type}

/-- The part of a pool that matters for what is queued, who sleeps and who goes on. -/
structure Core (β : Type) where
  queues : List (Ring β)
  gate : Gate
  phases : List Phase

namespace Core

def setQueue (x : Core β) (w : Nat) (r : Ring β) : Core β := { x with queues := x.queues.set w r }

def setGate (x : Core β) (g : Gate) : Core β := { x with gate := g }

def setPhase (x : Core β) (i : Nat) (a : Phase) : Core β := { x with phases := x.phases.set i a }

end Core

/-- `i` is the worker that naps and `o` how many queues, from its own on, it has looked at since it
declared that it would. `c` is how many tasks a thread has queued without having told sleepers, and
`single` tells a task from a chunk of a range. -/
inductive View (β : Type) where
  | away
  | pop (w : Nat) (d : Ring.Pop β) (nap : Option (Nat × Nat))
  | recheck (i o : Nat)
  | hold (t : β) (napping : Bool)
  | committed (i : Nat)
  | acquiring (i : Nat)
  | waking
  | aim (t : β) (c : Nat) (single : Bool)
  | push (t : β) (w : Nat) (e : Ring.Push β) (c : Nat) (single : Bool)
  | placed (c : Nat)
  | cut (c : Nat)
  | look (limit : Nat)
  | adding (n : Nat)
  | owed (n : Nat)

inductive Deed (β : Type) where
  | none
  | submitted (t : β)
  | begun (t : β)
  | dropped (t : β)

inductive Still (n : Nat) : View β → Deed β → View β → Prop where
  | away : Still n .away .none .away
  | pop (w : Nat) : Still n .away .none (.pop w .look none)
  | recheck {i o : Nat} (h : o < n) : Still n (.recheck i o) .none
      (.pop ((i + o) % n) .look (some (i, o)))
  | commit {i o : Nat} (h : n ≤ o) : Still n (.recheck i o) .none (.committed i)
  | giveUp (i : Nat) : Still n (.recheck i 0) .none .waking
  | hold (t : β) (b : Bool) : Still n (.hold t b) .none (.hold t b)
  | accept (t : β) : Still n .away (.submitted t) (.aim t 0 true)
  | cut : Still n .away .none (.cut 0)
  | aim (t : β) (c : Nat) : Still n (.cut c) .none (.aim t c false)
  | tell (c : Nat) : Still n (.cut c) .none (.look c)
  | offer (t : β) (w c : Nat) (b : Bool) : Still n (.aim t c b) .none (.push t w (.look t) c b)
  | next (c : Nat) : Still n (.placed c) .none (.cut c)
  | told : Still n (.placed 1) .none (.look 1)
  | rest (t : β) : Still n .away (.submitted t) (.hold t false)
  | begin (t : β) : Still n (.hold t false) (.begun t) .away

inductive Effect (n : Nat) (x : Core β) : View β → Deed β → Core β → View β → Prop where
  | still {v v' : View β} {d : Deed β} (h : Still n v d v') : Effect n x v d x v'
  | declare {i : Nat} : Effect n x .away .none (x.setGate x.gate.enter) (.recheck i 0)
  | retract {t : β} :
      Effect n x (.hold t true) .none (x.setGate x.gate.leave) (.hold t false)
  | wake : Effect n x .waking .none (x.setGate x.gate.leave) .away
  | pass {i : Nat} {s : Semaphore}
      (h : .done s () ∈ Semaphore.Wait.moves x.gate.semaphore .subtract) :
      Effect n x (.committed i) .none (x.setGate (x.gate.setSemaphore s)) .waking
  | sink {i : Nat} {s : Semaphore}
      (h : .go s .acquire ∈ Semaphore.Wait.moves x.gate.semaphore .subtract) :
      Effect n x (.committed i) .none (x.setGate (x.gate.setSemaphore s)) (.acquiring i)
  | acquire {i : Nat} {s : Semaphore}
      (h : .done s () ∈ Semaphore.Wait.moves x.gate.semaphore .acquire) :
      Effect n x (.acquiring i) .none (x.setGate (x.gate.setSemaphore s)) .waking
  | lookNone {limit : Nat} (h : min x.gate.sleepers limit = 0) :
      Effect n x (.look limit) .none x .away
  | lookSome {limit k : Nat} (h : min x.gate.sleepers limit = k + 1) :
      Effect n x (.look limit) .none x (.adding (k + 1))
  | add {k : Nat} {s : Semaphore}
      (h : .done s () ∈ Semaphore.Post.moves x.gate.semaphore (.add k)) :
      Effect n x (.adding k) .none (x.setGate (x.gate.setSemaphore s)) .away
  | owe {k l : Nat} {s : Semaphore}
      (h : .go s (.release l) ∈ Semaphore.Post.moves x.gate.semaphore (.add k)) :
      Effect n x (.adding k) .none (x.setGate (x.gate.setSemaphore s)) (.owed l)
  | release {k : Nat} {s : Semaphore}
      (h : .done s () ∈ Semaphore.Post.moves x.gate.semaphore (.release k)) :
      Effect n x (.owed k) .none (x.setGate (x.gate.setSemaphore s)) .away
  | pushing {t : β} {w c : Nat} {single : Bool} {r r' : Ring β} {e e' : Ring.Push β}
      (hr : x.queues[w]? = some r) (h : .go r' e' ∈ e.moves r) :
      Effect n x (.push t w e c single) .none (x.setQueue w r') (.push t w e' c single)
  | placed {t : β} {w c : Nat} {single : Bool} {r r' : Ring β} {e : Ring.Push β} {pos : UInt64}
      (hr : x.queues[w]? = some r) (h : .done r' (.ok pos) ∈ e.moves r) :
      Effect n x (.push t w e c single) (if single then .none else .submitted t)
        (x.setQueue w r') (.placed (c + 1))
  | refused {t u : β} {w w' c : Nat} {single : Bool} {r r' : Ring β} {e : Ring.Push β}
      (hr : x.queues[w]? = some r) (h : .done r' (.error u) ∈ e.moves r) :
      Effect n x (.push t w e c single) .none (x.setQueue w r') (.push u w' (.look u) c single)
  | inline {t u : β} {w : Nat} {r r' : Ring β} {e : Ring.Push β}
      (hr : x.queues[w]? = some r) (h : .done r' (.error u) ∈ e.moves r) :
      Effect n x (.push t w e 0 true) .none (x.setQueue w r') (.hold u false)
  | full {t u : β} {w c : Nat} {r r' : Ring β} {e : Ring.Push β}
      (hr : x.queues[w]? = some r) (h : .done r' (.error u) ∈ e.moves r) :
      Effect n x (.push t w e c false) .none (x.setQueue w r') (.look c)
  | popping {w : Nat} {nap : Option (Nat × Nat)} {r r' : Ring β} {d d' : Ring.Pop β}
      (hr : x.queues[w]? = some r) (h : .go r' d' ∈ d.moves r) :
      Effect n x (.pop w d nap) .none (x.setQueue w r') (.pop w d' nap)
  | missed {w : Nat} {r r' : Ring β} {d : Ring.Pop β} (hr : x.queues[w]? = some r)
      (h : .done r' none ∈ d.moves r) : Effect n x (.pop w d none) .none (x.setQueue w r') .away
  | passed {i o : Nat} {r r' : Ring β} {d : Ring.Pop β} (hr : x.queues[(i + o) % n]? = some r)
      (h : .done r' none ∈ d.moves r) : Effect n x (.pop ((i + o) % n) d (some (i, o))) .none
        (x.setQueue ((i + o) % n) r') (.recheck i (o + 1))
  | hit {w : Nat} {nap : Option (Nat × Nat)} {t : β} {r r' : Ring β} {d : Ring.Pop β}
      {pos : UInt64} (hr : x.queues[w]? = some r) (h : .done r' (some (pos, t)) ∈ d.moves r) :
      Effect n x (.pop w d nap) .none (x.setQueue w r') (.hold t nap.isSome)

def View.Fresh (v : View β) : Prop := v = .away ∨ ∃ w, v = .pop w .look none

/-- The steps of a thread that may as well be shutting the pool down. -/
inductive Shift (n : Nat) (x : Core β) : View β → Deed β → Core β → View β → Prop where
  | serve {v v' : View β} {d : Deed β} {x' : Core β} (h : Effect n x v d x' v') : Shift n x v d x' v'
  | call (limit : Nat) : Shift n x .away .none x (.look limit)
  | next {v : View β} {w : Nat} {r r' : Ring β} {d : Ring.Pop β} (hr : x.queues[w]? = some r)
      (h : .done r' none ∈ d.moves r) (hv : v.Fresh) :
      Shift n x (.pop w d none) .none (x.setQueue w r') v
  | discard {v : View β} (t : β) (hv : v.Fresh) : Shift n x (.hold t false) (.dropped t) x v

theorem Effect.phases {n : Nat} {x x' : Core β} {v v' : View β} {d : Deed β}
    (h : Effect n x v d x' v') : x'.phases = x.phases := by
  cases h <;> rfl

theorem Shift.phases {n : Nat} {x x' : Core β} {v v' : View β} {d : Deed β}
    (h : Shift n x v d x' v') : x'.phases = x.phases := by
  cases h with
  | serve h => exact h.phases
  | _ => rfl

theorem Effect.size {n : Nat} {x x' : Core β} {v v' : View β} {d : Deed β}
    (h : Effect n x v d x' v') : x'.queues.length = x.queues.length := by
  cases h <;> first | rfl | exact List.length_set

theorem Shift.size {n : Nat} {x x' : Core β} {v v' : View β} {d : Deed β}
    (h : Shift n x v d x' v') : x'.queues.length = x.queues.length := by
  cases h with
  | serve h => exact h.size
  | next => exact List.length_set
  | _ => rfl

end WorkStealing.Pool
