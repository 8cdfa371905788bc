import WorkStealing.Proofs.Pool.Stack
import WorkStealing.Proofs.Ring.Staged

namespace WorkStealing.Pool

variable {ι α : Type}

def Event.freed? : Event ι → Option (Label ι)
  | .ended t _ | .dropped t => some t
  | _ => none

def freed (h : List (Event ι)) : List (Label ι) := h.filterMap Event.freed?

/-- What is so of `q` however its threads have got there from `p`, if `T` holds of the queues that
have taken a task on the way. -/
structure Akin (T : Nat → Prop) (p q : Rings ι α) : Prop where
  size : q.size = p.size
  least : q.minGranularity = p.minGranularity
  last : q.lastPlaced = p.lastPlaced ∨ T q.lastPlaced
  shaped : (∀ w ∈ p.workers, ∃ n, w.queue.Shaped n) → ∀ w ∈ q.workers, ∃ n, w.queue.Shaped n
  held : ∀ i, p.isHeld i → q.isHeld i

structure Frame (T : Nat → Prop) (p q : Rings ι α) : Prop extends Akin T p q where
  aborted : q.aborted = p.aborted
  slots : q.slots = p.slots
  freed : freed q.history = freed p.history

variable {T : Nat → Prop} {p q r : Rings ι α} {i : Nat}

namespace Akin

theorem refl (p : Rings ι α) : Akin T p p := ⟨rfl, rfl, .inl rfl, id, fun _ h => h⟩

theorem trans (h : Akin T p q) (h' : Akin T q r) : Akin T p r where
  size := h'.size.trans h.size
  least := h'.least.trans h.least
  last := by
    rcases h'.last with he | ht
    · exact he.symm ▸ h.last
    · exact .inr ht
  shaped hp := h'.shaped (h.shaped hp)
  held i hi := h'.held i (h.held i hi)

theorem modify {f : Worker (Ring (Item ι α)) → Worker (Ring (Item ι α))}
    (hq : (∀ w ∈ p.workers, ∃ n, w.queue.Shaped n) → ∀ w ∈ p.workers, ∃ n, (f w).queue.Shaped n)
    (hf : ∀ w, w.held → (f w).held) : Akin T p (p.modify i f) := by
  have hget (j : Nat) : (p.modify i f).workers[j]? =
      p.workers[j]?.map fun w => if i = j then f w else w := by
    rw [Pool.modify, List.getElem?_modify]
    split <;> simp
  have hsize : (p.modify i f).size = p.size := List.length_modify ..
  refine ⟨hsize, rfl, .inl rfl, fun hp w hw => ?_, fun j hj => ?_⟩
  · obtain ⟨j, hj⟩ := List.getElem?_of_mem hw
    rw [hget] at hj
    obtain ⟨v, hv, rfl⟩ := Option.map_eq_some_iff.1 hj
    split
    · exact hq hp v (List.mem_of_getElem? hv)
    · exact hp v (List.mem_of_getElem? hv)
  · rw [isHeld] at hj ⊢
    rw [hget]
    cases hw : p.workers[j]? with
    | none => simp [hw] at hj
    | some w =>
      rw [hw, Option.any_some] at hj
      rw [Option.map_some, Option.any_some]
      split
      · exact hf w hj
      · exact hj

theorem same (hw : q.workers = p.workers) (hm : q.minGranularity = p.minGranularity)
    (hl : q.lastPlaced = p.lastPlaced ∨ T q.lastPlaced) : Akin T p q := by
  refine ⟨congrArg List.length hw, hm, hl, fun h => hw ▸ h, fun j hj => ?_⟩
  rwa [isHeld, hw]

end Akin

namespace Frame

theorem refl (p : Rings ι α) : Frame T p p := ⟨.refl p, rfl, rfl, rfl⟩

theorem setQueue {s t : Ring (Item ι α)} (hs : (core p).queues[i]? = some s)
    (ht : ∀ n, s.Shaped n → t.Shaped n) : Frame T p (p.setQueue i t) := by
  refine ⟨.modify (fun hp w _ => ?_) fun _ h => h, rfl, rfl, rfl⟩
  obtain ⟨v, hv, rfl⟩ := List.mem_map.1 (List.mem_of_getElem? hs)
  obtain ⟨n, hn⟩ := hp v hv
  exact ⟨n, ht n hn⟩

theorem pop {s : Ring (Item ι α)} {d : Ring.Pop (Item ι α)}
    {a : Move (Ring (Item ι α)) (Ring.Pop (Item ι α)) (Option (UInt64 × Item ι α))}
    (hs : (core p).queues[i]? = some s) (ha : a ∈ d.moves s) : Frame T p (p.setQueue i a.state) :=
  .setQueue hs fun _ hn => Ring.Pop.shaped hn ha

theorem push {s : Ring (Item ι α)} {e : Ring.Push (Item ι α)}
    {a : Move (Ring (Item ι α)) (Ring.Push (Item ι α)) (Except (Item ι α) UInt64)}
    (hs : (core p).queues[i]? = some s) (ha : a ∈ e.moves s) : Frame T p (p.setQueue i a.state) :=
  .setQueue hs fun _ hn => Ring.Push.shaped hn ha

theorem bump (f : Stats → Stats) : Frame T p (p.bump i f) :=
  ⟨.modify id fun _ h => h, rfl, rfl, rfl⟩

theorem setPhase (a : Phase) : Frame T p (p.setPhase i a) :=
  ⟨.modify id fun _ h => h, rfl, rfl, rfl⟩

theorem setGate (g : Gate) : Frame T p (Gated.setGate p g) :=
  ⟨.same rfl rfl (.inl rfl), rfl, rfl, rfl⟩

theorem note (h : Frame T p q) {e : Event ι} (he : e.freed? = none) : Frame T p (q.note e) :=
  ⟨h.toAkin.trans (.same rfl rfl (.inl rfl)), h.aborted, h.slots,
    (List.filterMap_cons_none he).trans h.freed⟩

end Frame

theorem Steal.frame {s : Steal (Ring.Pop (Item ι α)) ι α}
    {a : Move (Rings ι α) (Steal (Ring.Pop (Item ι α)) ι α) (Option (Item ι α))}
    (ha : a ∈ s.moves i p) : Frame T p a.state := by
  cases Steal.step ha with
  | aim _ | count =>
    rw [Move.state]
    exact .bump _
  | exhaust _ => exact .refl p
  | look hr h | miss hr h => exact .pop hr h
  | find hr h => exact (Frame.pop hr h).note rfl

theorem Recheck.frame {k : Recheck (Ring.Pop (Item ι α)) ι α}
    {a : Move (Rings ι α) (Recheck (Ring.Pop (Item ι α)) ι α) (Option (Finding ι α))}
    (ha : a ∈ k.moves i p) : Frame T p a.state := by
  cases Recheck.step ha with
  | begin _ | told _ => exact .refl p
  | look hr h | miss hr h => exact .pop hr h
  | find hr h => exact (Frame.pop hr h).note rfl
  | steal h | stolen h | exhaust h => exact Steal.frame h

theorem sleep_frame {s : Gate.Sleep (Recheck (Ring.Pop (Item ι α)) ι α) (Finding ι α)}
    {a : Move (Rings ι α) (Gate.Sleep (Recheck (Ring.Pop (Item ι α)) ι α) (Finding ι α))
      (Option (Finding ι α))}
    (ha : a ∈ s.moves (recheck i) p) : Frame T p a.state := by
  cases sleep_step ha with
  | recheck h | find h | commit h => exact Recheck.frame h
  | _ => exact .setGate _

theorem Search.frame {s : Search (Ring.Pop (Item ι α)) ι α}
    {a : Move (Rings ι α) (Search (Ring.Pop (Item ι α)) ι α) (Finding ι α)}
    (ha : a ∈ s.moves i p) : Frame T p a.state := by
  cases Search.step ha with
  | begin _ | told _ | rest | spin => exact .refl p
  | look hr h | miss hr h => exact .pop hr h
  | find hr h => exact (Frame.pop hr h).note rfl
  | steal h | stolen h | exhaust h => exact Steal.frame h
  | sleep h | found h | roused h | woken h => exact sleep_frame h
  | count =>
    rw [Move.state]
    exact .bump _

def Push.record? : Push (Ring.Push (Item ι α)) ι α → Option Nat
  | .record i => some i
  | _ => none

theorem Push.frame {s : Push (Ring.Push (Item ι α)) ι α}
    {a : Move (Rings ι α) (Push (Ring.Push (Item ι α)) ι α) (Except (Item ι α) Nat)}
    (hT : ∀ i, s.record? = some i → T i) (ha : a ∈ s.moves p) : Frame T p a.state := by
  cases Push.step ha with
  | aim => exact .refl p
  | offer hr h | next hr h _ | refuse hr h _ => exact .push hr h
  | place hr h => exact (Frame.push hr h).note rfl
  | record => exact ⟨.same rfl rfl (.inr (hT _ rfl)), rfl, rfl, rfl⟩

theorem Wake.frame {w : Wake} {a : Move (Rings ι α) Wake Unit} (ha : a ∈ w.moves p) :
    Frame T p a.state := by
  cases Wake.step ha with
  | notify _ | notified _ => exact .setGate _
  | count => exact ⟨.same rfl rfl (.inl rfl), rfl, rfl, rfl⟩

theorem Loop.akin {l : Loop (Ring.Pop (Item ι α)) ι α}
    {a : TurnMove (Ring (Item ι α)) ι α (Loop (Ring.Pop (Item ι α)) ι α)}
    (ha : a ∈ l.moves i p) : Akin T p a.state := by
  cases Loop.step ha with
  | search h | found h | told h => exact (Search.frame h).toAkin
  | countPanic | countRun =>
    rw [Move.state]
    exact (Frame.bump _).toAkin
  | reportPanic | reportAbort | abort => exact .same rfl rfl (.inl rfl)
  | stop => exact (Frame.setPhase _).toAkin

theorem Run.akin {place : Place} {t : Item ι α} {r : Run ι α}
    {a : TurnMove (Ring (Item ι α)) ι α (Run ι α)} (ha : a ∈ r.moves place t p) :
    Akin T p a.state := by
  cases Run.step ha with
  | @hold i h =>
    have hheld : Akin T p (p.setHeld i true) := .modify id fun _ _ => rfl
    exact hheld.trans (.same rfl rfl (.inl rfl))
  | _ => exact .same rfl rfl (.inl rfl)

def Submit.record? : Submit (Ring.Push (Item ι α)) ι α → Option Nat
  | .push s _ | .pushChunk _ _ _ s => s.record?
  | _ => none

theorem Submit.akin [BEq ι] {s : Submit (Ring.Push (Item ι α)) ι α}
    {a : TurnMove (Ring (Item ι α)) ι α (Submit (Ring.Push (Item ι α)) ι α)}
    (hT : ∀ i, s.record? = some i → T i) (ha : a ∈ s.moves p) : Akin T p a.state := by
  cases Submit.step ha with
  | push h | pushed h | refused h | pushChunk h | chunkPushed h | chunkRefused h =>
    exact (Push.frame hT h).toAkin
  | wake h | woken h | wakeAll h | rest h _ | finish h _ => exact (Wake.frame h).toAkin
  | _ => exact .same rfl rfl (.inl rfl)

theorem Shutdown.akin {unwinding : Bool} {s : Shutdown (Ring.Pop (Item ι α)) ι α}
    {a : TurnMove (Ring (Item ι α)) ι α (Shutdown (Ring.Pop (Item ι α)) ι α)}
    (ha : a ∈ s.moves unwinding p) : Akin T p a.state := by
  cases Shutdown.step ha with
  | tell _ _ => exact (Frame.setPhase _).toAkin
  | look _ hr h | miss _ hr h | find _ hr h => exact (Frame.pop hr h).toAkin
  | _ => exact .same rfl rfl (.inl rfl)

theorem state_land {place : Place} {below : List (RingActivity ι α)} {E : Type}
    (f : E → RingActivity ι α) (a : TurnMove (Ring (Item ι α)) ι α E) :
    (Point.land place below (a.map f)).state = a.state := by
  rcases a with ⟨q, x | ⟨x, callee⟩⟩ | ⟨q, o⟩
  · rfl
  · rfl
  · cases below <;> rfl

def Point.record? : RingPoint ι α → Option Nat
  | .busy _ (.submit s) _ => s.record?
  | _ => none

/-- No step lets a worker go, for one: that takes someone from outside the pool. -/
theorem Point.akin [BEq ι] {pt : RingPoint ι α} {a : RingMove ι α}
    (hT : ∀ i, pt.record? = some i → T i) (ha : a ∈ pt.moves p) : Akin T p a.state := by
  cases Point.taken ha with
  | loop d h =>
    rw [state_land]
    exact Loop.akin h
  | run d h =>
    rw [state_land]
    exact Run.akin h
  | submit d h =>
    rw [state_land]
    exact Submit.akin hT h
  | shutdown d h =>
    rw [state_land]
    exact Shutdown.akin h
  | await d _ _ =>
    rw [Move.state_embed]
    · exact .same rfl rfl (.inl rfl)
    · exact fun _ _ => rfl

end WorkStealing.Pool
