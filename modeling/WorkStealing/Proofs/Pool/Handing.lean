import WorkStealing.Proofs.Pool.Frame
import WorkStealing.Proofs.Pool.History

namespace WorkStealing.Pool

variable {ι α : Type}

/-- A task runs and returns or panics, or else it is dropped unrun, by a thread that is itself
unwinding or by one that is not. -/
inductive Fate (α : Type) where
  | returned (v : α)
  | panicked
  | dropped (unwinding : Bool)
  deriving DecidableEq, Repr

def Fate.report : Fate α → Except JoinError α
  | .returned v => .ok v
  | .panicked => .error .panicked
  | .dropped unwinding => Completer.verdict unwinding

namespace Fate

variable {x : Fate α} {v : α}

theorem report_eq_ok : x.report = .ok v ↔ x = .returned v := by
  rcases x with w | _ | _ | _ <;> simp [report, Completer.verdict]

theorem report_eq_panicked : x.report = .error .panicked ↔ x = .panicked ∨ x = .dropped true := by
  rcases x with w | _ | _ | _ <;> simp [report, Completer.verdict]

theorem report_eq_cancelled : x.report = .error .cancelled ↔ x = .dropped false := by
  rcases x with w | _ | _ | _ <;> simp [report, Completer.verdict]

end Fate

def Job.fate? : Job ι α → Option (Fate α)
  | .task _ (.answer v) none _ => some (.returned v)
  | .task _ (.answer _) (some _) _ => some .panicked
  | _ => none

/-- What a step makes the fate of the task of a slot: the task begins, or it is taken out of a queue
to be dropped. -/
def fate? (s : Nat) : RingPoint ι α → RingMove ι α → Option (Fate α)
  | .busy _ (.run t .begin) _, _ => if t.closure.slot? = some s then t.closure.fate? else none
  | .busy _ (.shutdown unwinding (.drain _ _ _)) _,
    .go _ (.busy _ (.shutdown _ (.cancel _ t _ _ _)) _) =>
    if t.closure.slot? = some s then some (.dropped unwinding) else none
  | _, _ => none

inductive Part (α : Type) where
  | away
  | storing (r : Except JoinError α)
  | posting (p : Latch.Post)
  | waiting (w : Latch.Wait)
  | taking
  | told (r : Except JoinError α)

inductive Handing (z : ResultSlot α) :
    Part α → Option (Fate α) → ResultSlot α → Part α → Prop where
  | still : Handing z .away none z .away
  | meet (x : Fate α) : Handing z .away (some x) z (.storing x.report)
  | store (r : Except JoinError α) :
      Handing z (.storing r) none { z with result := some r } (.posting (.look 1))
  | post {p q : Latch.Post} {l : Latch} (h : .go l q ∈ p.moves z.latch) :
      Handing z (.posting p) none (z.setLatch l) (.posting q)
  | posted {p : Latch.Post} {l : Latch} {b : Bool} (h : .done l b ∈ p.moves z.latch) :
      Handing z (.posting p) none (z.setLatch l) .away
  | wait {w v : Latch.Wait} {l : Latch} (h : .go l v ∈ w.moves z.latch) :
      Handing z (.waiting w) none (z.setLatch l) (.waiting v)
  | passed {w : Latch.Wait} {l : Latch} {alarm : Option Int32}
      (h : .done l alarm ∈ w.moves z.latch) :
      Handing z (.waiting w) none (z.setLatch l) .taking
  | take : Handing z .taking none { z with result := none }
      (.told (z.result.getD (.error .cancelled)))

section Slots

variable {p : Rings ι α} {i : Nat}

/-- A slot that is yet to be made is as good as a new one. -/
def slotAt (p : Rings ι α) (s : Nat) : ResultSlot α := p.slots[s]?.getD {}

theorem getElem?_slots {s : Nat} (h : s < p.slots.length) : p.slots[s]? = some (slotAt p s) := by
  rw [slotAt, List.getElem?_eq_getElem h, Option.getD_some]

theorem Loop.slots {l : Loop (Ring.Pop (Item ι α)) ι α}
    {a : TurnMove (Ring (Item ι α)) ι α (Loop (Ring.Pop (Item ι α)) ι α)} (ha : a ∈ l.moves i p) :
    a.state.slots = p.slots := by
  cases Loop.step ha with
  | search h | found h | told h => exact (Search.frame (T := fun _ => True) h).slots
  | _ => rfl

theorem Submit.slots [BEq ι] {s : Submit (Ring.Push (Item ι α)) ι α}
    {a : TurnMove (Ring (Item ι α)) ι α (Submit (Ring.Push (Item ι α)) ι α)} (ha : a ∈ s.moves p) :
    a.state.slots = p.slots ∨ a.state.slots = p.slots ++ [({} : ResultSlot α)] := by
  cases Submit.step ha with
  | answer => exact .inr rfl
  | push h | pushed h | refused h | pushChunk h | chunkPushed h | chunkRefused h =>
    exact .inl (Push.frame (T := fun _ => True) (fun _ _ => trivial) h).slots
  | wake h | woken h | wakeAll h | rest h _ | finish h _ =>
    exact .inl (Wake.frame (T := fun _ => True) h).slots
  | _ => exact .inl rfl

end Slots

section Parts

def deliverPart : ResultSlot.Deliver α → Part α
  | .store r => .storing r
  | .post p => .posting p

def awaitPart : ResultSlot.Await → Part α
  | .wait w => .waiting w
  | .take => .taking

def Activity.part (s : Nat) : RingActivity ι α → Part α
  | .run _ (.deliver s' _ d _) => if s' = s then deliverPart d else .away
  | .shutdown _ (.cancel _ _ s' d _) => if s' = s then deliverPart d else .away
  | _ => .away

def Point.part (s : Nat) : RingPoint ι α → Part α
  | .busy _ top _ => top.part s
  | .await s' w => if s' = s then awaitPart w else .away

def threadPart (s : Nat) : RingThread ι α → Part α
  | .running _ pt => pt.part s
  | .finished (.await s') (.joined r) => if s' = s then .told r else .away
  | .finished _ _ => .away

def Turn.part (s : Nat) : Turn ι α (RingActivity ι α) → Part α
  | .stay x => x.part s
  | .call _ _ => .away

variable {p p' : Rings ι α} {n s s' : Nat} {c : Call ι α} {place : Place}
  {below : List (RingActivity ι α)}

theorem Stacked.part_resume {x : RingActivity ι α} {b : Bool} (h : Stacked n c place b (x :: below))
    (policy : PanicPolicy) (o : Outcome) : (x.resume policy o).part s = .away := by
  cases h with
  | worker hi => rfl
  | run h => cases o <;> rfl
  | inline h =>
    rename_i handle?
    cases o <;> cases handle? <;> rfl

theorem threadPart_land {d : TurnMove (Ring (Item ι α)) ι α (RingActivity ι α)}
    (h : below = [] ∨ ∃ b, Stacked n c place b below) :
    threadPart s ((Point.land place below d).land c).2 =
      d.read (Turn.part s) fun _ => .away := by
  rcases d with ⟨p', x | ⟨x, k⟩⟩ | ⟨p', o⟩
  · rfl
  · cases k <;> rfl
  · cases below with
    | nil => cases c <;> rfl
    | cons x below =>
      obtain ⟨b, hb⟩ := h.resolve_left (List.cons_ne_nil _ _)
      exact hb.part_resume _ o

theorem slotAt_of_slots (h : p'.slots = p.slots ∨ p'.slots = p.slots ++ [({} : ResultSlot α)])
    (s : Nat) : slotAt p' s = slotAt p s := by
  rcases h with h | h
  · rw [slotAt, h, slotAt]
  · rw [slotAt, h, slotAt, List.getElem?_append]
    split
    · rfl
    · rename_i hge
      rw [List.getElem?_eq_none (Nat.not_lt.1 hge), List.getElem?_singleton]
      split <;> rfl

structure Hands (s : Nat) (p : Rings ι α) (c : Call ι α) (pt : RingPoint ι α) (a : RingMove ι α) :
    Prop where
  handing : Handing (slotAt p s) (pt.part s) (fate? s pt a) (slotAt a.state s)
    (threadPart s (a.land c).2)
  length : p.slots.length ≤ a.state.slots.length

theorem hands_of_still {pt : RingPoint ι α} {a : RingMove ι α} (hpart : pt.part s = .away)
    (hfate : fate? s pt a = none) (hafter : threadPart s (a.land c).2 = .away)
    (hslots : a.state.slots = p.slots ∨ a.state.slots = p.slots ++ [({} : ResultSlot α)]) :
    Hands s p c pt a := by
  refine ⟨?_, ?_⟩
  · rw [hpart, hfate, hafter, slotAt_of_slots hslots]
    exact .still
  · rcases hslots with h | h
    · rw [h]
    · rw [h, List.length_append]
      exact Nat.le_add_right _ _

theorem deliver_handing {z : ResultSlot α} {d : ResultSlot.Deliver α}
    {b : Move (ResultSlot α) (ResultSlot.Deliver α) Completer} (hb : b ∈ d.moves z) :
    Handing z (deliverPart d) none b.state (b.read deliverPart fun _ => .away) := by
  cases d with
  | store r =>
    obtain rfl := List.mem_singleton.1 hb
    exact .store r
  | post q =>
    obtain ⟨e, he, rfl⟩ := List.mem_map.1 hb
    cases e with
    | go l q' => exact .post he
    | done l b => exact .posted he

theorem await_handing {z : ResultSlot α} {w : ResultSlot.Await}
    {b : Move (ResultSlot α) ResultSlot.Await (Except JoinError α)} (hb : b ∈ w.moves z) :
    Handing z (awaitPart w) none b.state (b.read awaitPart .told) := by
  cases w with
  | wait w =>
    obtain ⟨e, he, rfl⟩ := List.mem_map.1 hb
    cases e with
    | go l q' => exact .wait he
    | done l b => exact .passed he
  | take =>
    obtain rfl := List.mem_singleton.1 hb
    exact .take

theorem Handing.seen {z z' : ResultSlot α} {x y : Part α} (hz : p.slots[s']? = some z)
    (h : Handing z x none z' y) (s : Nat) :
    Handing (slotAt p s) (if s' = s then x else .away) none (slotAt (p.setSlot s' z') s)
      (if s' = s then y else .away) := by
  have hset : slotAt (p.setSlot s' z') s = if s' = s then z' else slotAt p s := by
    rw [slotAt, setSlot, List.getElem?_set]
    split
    · rename_i he
      subst he
      rw [if_pos (List.getElem?_eq_some_iff.1 hz).1]
      rfl
    · rfl
  rw [hset]
  split
  · rename_i he
    subst he
    rw [slotAt, hz]
    exact h
  · exact .still

theorem length_setSlot (z : ResultSlot α) : (p.setSlot s z).slots.length = p.slots.length :=
  List.length_set

theorem hands_of_handing {pt : RingPoint ι α} {a : RingMove ι α} {z z' : ResultSlot α} {x y : Part α}
    (hz : p.slots[s']? = some z) (h : Handing z x none z' y)
    (hpart : pt.part s = if s' = s then x else .away) (hfate : fate? s pt a = none)
    (hstate : a.state = p.setSlot s' z')
    (hafter : threadPart s (a.land c).2 = if s' = s then y else .away) : Hands s p c pt a := by
  refine ⟨?_, ?_⟩
  · rw [hpart, hfate, hafter, hstate]
    exact h.seen hz s
  · rw [hstate]
    exact (length_setSlot z').ge

theorem handing_afterBegin (place : Place) (t : Item ι α) (z : ResultSlot α) (s : Nat) :
    Handing z .away (if t.closure.slot? = some s then t.closure.fate? else none) z
      ((Activity.run t (Run.afterBegin place t) : RingActivity ι α).part s) := by
  rcases t with ⟨layout, ⟨id, work, panic, slot⟩ | ⟨id, lo, hi, panic⟩⟩
  · cases work with
    | answer v =>
      cases slot with
      | none => cases panic <;> exact .still
      | some s' =>
        cases panic with
        | none =>
          simp only [Job.slot?, Option.some.injEq, Run.afterBegin, Activity.part]
          split
          · exact .meet (.returned v)
          · exact .still
        | some payload =>
          simp only [Job.slot?, Option.some.injEq, Run.afterBegin, Run.release_panicked,
            Activity.part]
          split
          · exact .meet .panicked
          · exact .still
    | _ =>
      simp only [Job.fate?, ite_self]
      exact .still
  · exact .still

theorem Run.hands {t : Item ι α} {r : Run ι α} {a : TurnMove (Ring (Item ι α)) ι α (Run ι α)}
    (hs : Stacked n c place true below) (ha : a ∈ r.moves place t p) (s : Nat) :
    Hands s p c (.busy place (.run t r) below) (Point.land place below (a.map (.run t))) := by
  have hland := threadPart_land (s := s) (d := a.map (.run t)) (.inr ⟨true, hs⟩)
  cases Run.step ha with
  | hold h =>
    refine hands_of_still rfl ?_ hland (.inl rfl)
    unfold Job.holds? at h
    split at h
    · rename_i he
      simp only [fate?, he, Job.fate?, ite_self]
    · cases h
  | begin h =>
    refine ⟨?_, Nat.le_refl _⟩
    rw [hland]
    exact handing_afterBegin place t _ s
  | deliver hz h => exact hands_of_handing hz (deliver_handing h) rfl rfl rfl hland
  | delivered hz h =>
    exact hands_of_handing hz (deliver_handing h) rfl rfl rfl (hland.trans (ite_self _).symm)
  | leave => cases below <;> exact hands_of_still rfl rfl hland (.inl rfl)
  | _ => exact hands_of_still rfl rfl hland (.inl rfl)

theorem handing_discard (unwinding : Bool) (i : Nat) (t : Item ι α) (d : Ring.Pop (Item ι α))
    (k : Nat) (z : ResultSlot α) (s : Nat) :
    Handing z .away (fate? s (.busy place (.shutdown unwinding (.drain i d k)) below)
      (.go p (.busy place (.shutdown unwinding (Shutdown.discard unwinding i t k)) below))) z
      ((Activity.shutdown unwinding (Shutdown.discard unwinding i t k) : RingActivity ι α).part s) := by
  cases hslot : t.closure.slot? with
  | none =>
    rw [Shutdown.discard_of_none hslot]
    exact .still
  | some slot =>
    rw [Shutdown.discard_of_slot hslot]
    simp only [fate?, hslot, Option.some.injEq, Activity.part]
    split
    · exact .meet (.dropped unwinding)
    · exact .still

theorem Shutdown.hands {unwinding : Bool} {x : Shutdown (Ring.Pop (Item ι α)) ι α}
    {a : TurnMove (Ring (Item ι α)) ι α (Shutdown (Ring.Pop (Item ι α)) ι α)}
    (hs : Framed n c (.busy place (.shutdown unwinding x) below)) (ha : a ∈ x.moves unwinding p)
    (s : Nat) : Hands s p c (.busy place (.shutdown unwinding x) below)
      (Point.land place below (a.map (.shutdown unwinding))) := by
  obtain ⟨rfl, rfl, rfl⟩ := hs
  have hland : threadPart s ((Point.land .caller [] (a.map (.shutdown unwinding)) :
      RingMove ι α).land (.shutdown unwinding)).2 =
      (a.map (.shutdown unwinding)).read (Turn.part s) fun _ => .away :=
    threadPart_land (n := 0) (.inl rfl)
  cases Shutdown.step ha with
  | @find i k r r' d pos t hi hr h =>
    refine ⟨?_, Nat.le_refl _⟩
    rw [hland]
    exact handing_discard unwinding i t d k _ s
  | cancel hz h => exact hands_of_handing hz (deliver_handing h) rfl rfl rfl hland
  | cancelled hz h =>
    exact hands_of_handing hz (deliver_handing h) rfl rfl rfl (hland.trans (ite_self _).symm)
  | _ => exact hands_of_still rfl rfl hland (.inl rfl)

variable [BEq ι]

theorem Submit.hands {x : Submit (Ring.Push (Item ι α)) ι α}
    {a : TurnMove (Ring (Item ι α)) ι α (Submit (Ring.Push (Item ι α)) ι α)}
    (hs : Stacked n c place false below) (ha : a ∈ x.moves p) (s : Nat) :
    Hands s p c (.busy place (.submit x) below) (Point.land place below (a.map .submit)) := by
  refine hands_of_still rfl rfl ?_ ?_
  · rw [threadPart_land (.inr ⟨false, hs⟩)]
    rcases a with ⟨p', x' | ⟨x', k⟩⟩ | ⟨p', o⟩ <;> rfl
  · have hslots := Submit.slots ha
    rcases a with ⟨p', x' | ⟨x', k⟩⟩ | ⟨p', o⟩
    · exact hslots
    · exact hslots
    · cases below <;> exact hslots

theorem Point.hands {pt : RingPoint ι α} {a : RingMove ι α} (hs : Framed n c pt)
    (ha : a ∈ pt.moves p) (s : Nat) : Hands s p c pt a := by
  cases Point.taken ha with
  | loop d hd =>
    obtain ⟨rfl, rfl, rfl, -⟩ := hs
    have hslots := Loop.slots hd
    rcases d with ⟨p', l' | ⟨x, k⟩⟩ | ⟨p', o⟩
    · exact hands_of_still rfl rfl rfl (.inl hslots)
    · cases k <;> exact hands_of_still rfl rfl rfl (.inl hslots)
    · exact hands_of_still rfl rfl rfl (.inl hslots)
  | run d hd => exact Run.hands hs hd s
  | submit d hd => exact Submit.hands hs hd s
  | shutdown d hd => exact Shutdown.hands hs hd s
  | await d hz hd =>
    obtain rfl := hs
    cases d with
    | go z' w => exact hands_of_handing hz (await_handing hd) rfl rfl rfl rfl
    | done z' r => exact hands_of_handing hz (await_handing hd) rfl rfl rfl rfl

end Parts

end WorkStealing.Pool
