import WorkStealing.Proofs.Latch.Lone
import WorkStealing.Proofs.Pool.Frame
import WorkStealing.Proofs.Ring.Lone

namespace WorkStealing.Pool

variable {ι α P R : Type}

/-- Nobody is at work on the queues. Each has room for `cap` tasks, and these are the ones in it. -/
def Stocked (p : Rings ι α) (cap : Nat) (tasks : Nat → List (Item ι α)) : Prop :=
  ∀ (i : Nat) (w : Worker (Ring (Item ι α))), p.workers[i]? = some w →
    ∃ f, w.queue.Holds cap f (tasks i)

variable {p q : Rings ι α} {i j cap : Nat} {w : Worker (Ring (Item ι α))} {r : Ring (Item ι α)}
  {tasks : Nat → List (Item ι α)}

theorem getElem?_setQueue (r : Ring (Item ι α)) : (p.setQueue i r).workers[j]? =
    if i = j then p.workers[j]?.map fun w => { w with queue := r } else p.workers[j]? := by
  rw [setQueue, modify, List.getElem?_modify]
  split
  · rfl
  · simp

theorem getElem?_setQueue_self (hw : p.workers[i]? = some w) (r : Ring (Item ι α)) :
    (p.setQueue i r).workers[i]? = some { w with queue := r } := by
  rw [getElem?_setQueue, if_pos rfl, hw, Option.map_some]

theorem setQueue_setQueue (r : Ring (Item ι α)) :
    (p.setQueue i r).setQueue i = p.setQueue i := by
  funext s
  simp only [setQueue, modify, List.modify_modify_eq]
  rfl

theorem setQueue_self (hw : p.workers[i]? = some w) : p.setQueue i w.queue = p := by
  have hws : p.workers.modify i (fun v => { v with queue := w.queue }) = p.workers := by
    refine List.ext_getElem? fun k => ?_
    rw [List.getElem?_modify]
    split
    · rename_i hk
      rw [← hk, hw]
      rfl
    · simp
  rw [setQueue, modify, hws]

theorem Stocked.setQueue {f : Nat} {ts : List (Item ι α)} (h : Stocked p cap tasks)
    (hr : r.Holds cap f ts) : Stocked (p.setQueue i r) cap (Function.update tasks i ts) := by
  intro j v hv
  rw [getElem?_setQueue] at hv
  split at hv
  · rename_i hij
    subst hij
    obtain ⟨u, -, rfl⟩ := Option.map_eq_some_iff.1 hv
    rw [Function.update_self]
    exact ⟨f, hr⟩
  · rename_i hij
    rw [Function.update_of_ne (Ne.symm hij)]
    exact h j v hv

theorem Stocked.of_workers (h : Stocked p cap tasks) (hw : q.workers = p.workers) :
    Stocked q cap tasks := fun i w hi => h i w (hw ▸ hi)

section Queues

variable {g : Rings ι α → P → List (Move (Rings ι α) P R)}

theorem passes_tryPop {d : Ring.Pop (Item ι α)} {stay : Ring.Pop (Item ι α) → P}
    {finish : Rings ι α → Option (Item ι α) → Move (Rings ι α) P R} {x : Option (Item ι α)}
    (hg : ∀ r d, g (p.setQueue i r) (stay d) = tryPop (p.setQueue i r) i d stay finish)
    (hw : p.workers[i]? = some w)
    (h : Passes Queue.pop.moves (.go w.queue d) (.done r x)) :
    Passes g (.go p (stay d)) (finish (p.setQueue i r) x) := by
  have hE : Embeds Queue.pop.moves g (Move.embed (p.setQueue i) stay
      fun s t => finish (p.setQueue i s) t) fun _ => True := by
    refine ⟨fun _ _ _ _ _ => trivial, fun s e _ => ⟨_, _, rfl, ?_⟩⟩
    simp only [hg, tryPop, getElem?_setQueue_self hw, setQueue_setQueue]
  have hmap := h.map hE trivial
  rwa [Move.embed, setQueue_self hw] at hmap

theorem passes_tryPush {e : Ring.Push (Item ι α)} {stay : Ring.Push (Item ι α) → P}
    {finish : Rings ι α → Except (Item ι α) Unit → Move (Rings ι α) P R} {x : Except (Item ι α) Unit}
    (hg : ∀ r e, g (p.setQueue i r) (stay e) = tryPush (p.setQueue i r) i e stay finish)
    (hw : p.workers[i]? = some w)
    (h : Passes Queue.push.moves (.go w.queue e) (.done r x)) :
    Passes g (.go p (stay e)) (finish (p.setQueue i r) x) := by
  have hE : Embeds Queue.push.moves g (Move.embed (p.setQueue i) stay
      fun s t => finish (p.setQueue i s) t) fun _ => True := by
    refine ⟨fun _ _ _ _ _ => trivial, fun s e _ => ⟨_, _, rfl, ?_⟩⟩
    simp only [hg, tryPush, getElem?_setQueue_self hw, setQueue_setQueue]
  have hmap := h.map hE trivial
  rwa [Move.embed, setQueue_self hw] at hmap

end Queues

theorem map_embed_stay {X Y Z W : Type} (f : Z → W) (g : X → Z)
    (finish : Rings ι α → Y → TurnMove (Ring (Item ι α)) ι α Z) (l : List (Move (Rings ι α) X Y)) :
    (l.map (.embed id (fun x => .stay (g x)) finish)).map (TurnMove.map f) =
      l.map (.embed id (fun x => .stay (f (g x))) fun p y => (finish p y).map f) := by
  rw [List.map_map]
  refine List.map_congr_left fun a _ => ?_
  cases a <;> rfl

section Threads

variable [BEq ι] {place : Place} {top : RingActivity ι α} {below : List (RingActivity ι α)}

theorem moves_busy (ha : p.aborted = false) :
    calls.moves p (.busy place top below) = (top.moves place p).map (Point.land place below) := by
  rw [calls]
  simp only [Point.moves, ha, Bool.false_eq_true, if_false]

theorem passes_busy {a : TurnMove (Ring (Item ι α)) ι α (RingActivity ι α)}
    (ha : p.aborted = false) (h : top.moves place p = [a]) :
    Passes calls.moves (.go p (.busy place top below)) (Point.land place below a) := by
  refine passes_of_moves ?_
  rw [moves_busy ha, h, List.map_singleton]

theorem passes_stay {x : RingActivity ι α} (ha : p.aborted = false)
    (h : top.moves place p = [.go q (.stay x)]) :
    Passes calls.moves (.go p (.busy place top below)) (.go q (.busy place x below)) :=
  passes_busy ha h

theorem passes_call {x : RingActivity ι α} {c : Callee ι α} (ha : p.aborted = false)
    (h : top.moves place p = [.go q (.call x c)]) :
    Passes calls.moves (.go p (.busy place top below))
      (.go q (.busy place c.activity (x :: below))) :=
  passes_busy ha h

theorem embeds_busy {X Y : Type} {f : Rings ι α → X → List (Move (Rings ι α) X Y)}
    {stay : X → RingActivity ι α}
    {finish : Rings ι α → Y → TurnMove (Ring (Item ι α)) ι α (RingActivity ι α)}
    (hf : ∀ p x a, a ∈ f p x → Frame (fun _ => True) p a.state)
    (hstay : ∀ p x, (stay x).moves place p =
      (f p x).map (.embed id (fun x => .stay (stay x)) finish)) :
    Embeds f calls.moves
      (fun a => Point.land place below (a.embed id (fun x => .stay (stay x)) finish))
      fun p => p.aborted = false := by
  refine ⟨fun p x a hp ha => (hf p x a ha).aborted.trans hp, fun p x hp => ⟨_, _, rfl, ?_⟩⟩
  rw [id, moves_busy hp, hstay, List.map_map]
  rfl

end Threads

theorem passes_wake (p : Rings ι α) (k : Nat) : ∃ g n,
    Passes Wake.moves (.go p (.upTo k)) (.done { p with gate := g, semaphorePosts := n } ()) ∧
      (min p.gate.sleepers k = 0 → g = p.gate ∧ n = p.semaphorePosts) := by
  rcases hk : min p.gate.sleepers k with _ | m
  · have hlook : Wake.moves p (.upTo k) = [.go p (.count 0)] := by
      simp [Wake.upTo, Wake.moves, Gate.notify, Gate.Notify.moves, Gated.gate, hk, Move.embed,
        Gated.setGate]
    exact ⟨p.gate, p.semaphorePosts, (passes_of_moves hlook).trans (passes_of_moves rfl),
      fun _ => ⟨rfl, rfl⟩⟩
  · have hlook : Wake.moves p (.upTo k) = [.go p (.notify (.post (m + 1) (.add (m + 1))))] := by
      simp [Wake.upTo, Wake.moves, Gate.notify, Gate.Notify.moves, Gated.gate, hk, Move.embed,
        Gated.setGate]
    obtain ⟨s, hs⟩ := p.gate.semaphore.passes_post (m + 1)
    let put (s : Semaphore) : Rings ι α := { p with gate := p.gate.setSemaphore s }
    have hE : Embeds Semaphore.Post.moves (Wake.moves (Q := Ring (Item ι α)) (ι := ι) (α := α))
        (Move.embed put (fun e => .notify (.post (m + 1) e)) fun s _ => .go (put s) (.count (m + 1)))
        fun _ => True := by
      refine ⟨fun _ _ _ _ _ => trivial, fun u e _ => ⟨_, _, rfl, ?_⟩⟩
      simp only [Wake.moves, Gate.notify, Gate.Notify.moves, List.map_map]
      refine List.map_congr_left fun b _ => ?_
      cases b <;> rfl
    have hpost := hs.map hE trivial
    exact ⟨_, _, (passes_of_moves hlook).trans (hpost.trans (passes_of_moves rfl)),
      fun h => absurd h (Nat.succ_ne_zero m)⟩

theorem getElem?_setSlot {slot : Nat} {z : ResultSlot α} (hz : p.slots[slot]? = some z)
    (x : ResultSlot α) : (p.setSlot slot x).slots[slot]? = some x := by
  have hlt := (List.getElem?_eq_some_iff.1 hz).1
  simp [setSlot, hlt]

section Handing

variable [BEq ι] {slot : Nat}

theorem passes_deliver (place : Place) (t : Item ι α) (below : List (RingActivity ι α))
    {z : ResultSlot α} (ha : p.aborted = false) (hz : p.slots[slot]? = some z)
    (hs : z.latch.Sturdy) (w : Writer) (r : Except JoinError α) (o : Outcome) :
    ∃ z' : ResultSlot α,
    Passes calls.moves (.go p (.busy place (.run t (.deliver slot w (.store r) o)) below))
      (.go (p.setSlot slot z') (.busy place (.run t (.leave o)) below)) ∧ z'.latch.Sturdy := by
  let put (l : Latch) : Rings ι α := p.setSlot slot ⟨l, some r⟩
  have hstore : (Activity.run t (.deliver slot w (.store r) o)).moves place p =
      [.go (put z.latch) (.stay (.run t (.deliver slot w (.post (.look 1)) o)))] := by
    simp [Activity.moves, Run.moves, handOver, hz, ResultSlot.Deliver.moves, Move.embed,
      TurnMove.map, Turn.map, put]
  obtain ⟨l, x, hl, hsturdy⟩ := Latch.passes_post hs 1
  have hE : Embeds Latch.Post.moves calls.moves
      (Move.embed put (fun q => .busy place (.run t (.deliver slot w (.post q) o)) below)
        fun l _ => .go (put l) (.busy place (.run t (.leave o)) below)) fun _ => True := by
    refine ⟨fun _ _ _ _ _ => trivial, fun u q _ => ⟨_, _, rfl, ?_⟩⟩
    rw [moves_busy (show (put u).aborted = false from ha)]
    simp only [Activity.moves, Run.moves, handOver, getElem?_setSlot hz, put,
      ResultSlot.Deliver.moves, List.map_map]
    refine List.map_congr_left fun b _ => ?_
    cases b with
    | go l q => simp [Move.embed, TurnMove.map, Turn.map, Point.land, setSlot, ResultSlot.setLatch]
    | done l x =>
      cases w <;> simp [Move.embed, TurnMove.map, TurnMove.stay, Turn.map, Point.land, setSlot,
        ResultSlot.setLatch, Run.release_delivered]
  exact ⟨⟨l, some r⟩, (passes_stay ha hstore).trans (hl.map hE trivial), hsturdy⟩

theorem passes_answer (place : Place) (layout : Layout) (id : ι) (v : α) (panic : Option Payload)
    (below : List (RingActivity ι α)) {z : ResultSlot α} (ha : p.aborted = false)
    (hz : p.slots[slot]? = some z) (hs : z.latch.Sturdy) : ∃ z' : ResultSlot α,
    let t : Item ι α := ⟨layout, .task id (.answer v) panic (some slot)⟩
    Passes calls.moves (.go p (.busy place (.run t (Run.afterBegin place t)) below))
      (.go (p.setSlot slot z') (.busy place (.run t (.leave (Run.outcome place t))) below)) ∧
      z'.latch.Sturdy := by
  cases panic with
  | none => exact passes_deliver place _ below ha hz hs .complete (.ok v) _
  | some payload => exact passes_deliver place _ below ha hz hs .destructor (.error .panicked) _

end Handing

end WorkStealing.Pool
