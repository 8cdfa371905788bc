import WorkStealing.Proofs.Pool.View

namespace WorkStealing

namespace Gate

inductive Notify.Taken (g : Gate) : Notify → Move Gate Notify Nat → Prop where
  | none {limit : Nat} (h : min g.sleepers limit = 0) : Taken g (.look limit) (.done g 0)
  | some {limit n : Nat} (h : min g.sleepers limit = n + 1) :
      Taken g (.look limit) (.go g (.post (n + 1) (.add (n + 1))))
  | owe {n k l : Nat} {s : Semaphore}
      (h : .go s (.release l) ∈ Semaphore.Post.moves g.semaphore (.add k)) :
      Taken g (.post n (.add k)) (.go (g.setSemaphore s) (.post n (.release l)))
  | post {n : Nat} {q : Semaphore.Post} {s : Semaphore} (h : .done s () ∈ q.moves g.semaphore) :
      Taken g (.post n q) (.done (g.setSemaphore s) n)

theorem Notify.taken {g : Gate} {n : Notify} {a : Move Gate Notify Nat} (ha : a ∈ n.moves g) :
    n.Taken g a := by
  cases n with
  | look limit =>
    simp only [Notify.moves] at ha
    split at ha
    · rename_i h
      exact List.mem_singleton.1 ha ▸ .none h
    · rename_i h
      exact List.mem_singleton.1 ha ▸ .some h
  | post n q =>
    obtain ⟨b, hb, rfl⟩ := List.mem_map.1 ha
    cases b with
    | go s q' =>
      obtain ⟨k, l, rfl, rfl⟩ := Semaphore.Post.eq_of_go hb
      exact .owe hb
    | done s u => exact .post hb

end Gate

namespace Pool

variable {ι α : Type}

abbrev Rings (ι α : Type) := Pool (Ring (Item ι α)) ι α

def core (p : Rings ι α) : Core (Item ι α) :=
  ⟨p.workers.map Worker.queue, p.gate, p.workers.map Worker.phase⟩

section Core

theorem map_modify_eq {X Y : Type} {f : X → Y} {g : X → X} (h : ∀ x, f (g x) = f x) (l : List X)
    (i : Nat) : (l.modify i g).map f = l.map f := by
  refine List.ext_getElem? fun j => ?_
  rw [List.getElem?_map, List.getElem?_map, List.getElem?_modify]
  split
  · cases l[j]? <;> simp [h]
  · simp

theorem map_modify_set {X Y : Type} {f : X → Y} {g : X → X} {y : Y} (h : ∀ x, f (g x) = y)
    (l : List X) (i : Nat) : (l.modify i g).map f = (l.map f).set i y := by
  refine List.ext_getElem? fun j => ?_
  rw [List.getElem?_map, List.getElem?_modify, List.getElem?_set, List.getElem?_map]
  by_cases hj : i = j
  · subst hj
    by_cases hl : i < l.length
    · simp [hl, h]
    · simp [hl]
  · simp [hj]

variable (p : Rings ι α) (i : Nat)

@[simp]
theorem core_note (e : Event ι) : core (p.note e) = core p := rfl

@[simp]
theorem core_bump (f : Stats → Stats) : core (p.bump i f) = core p := by
  simp [core, bump, modify, map_modify_eq]

@[simp]
theorem core_setHeld (held : Bool) : core (p.setHeld i held) = core p := by
  simp [core, setHeld, modify, map_modify_eq]

@[simp]
theorem core_setSlot (slot : ResultSlot α) : core (p.setSlot i slot) = core p := rfl

@[simp]
theorem core_setQueue (r : Ring (Item ι α)) :
    core (p.setQueue i r) = (core p).setQueue i r := by
  simp only [core, setQueue, modify, Core.setQueue, Core.mk.injEq, true_and]
  constructor
  · exact map_modify_set (by simp) _ _
  · exact map_modify_eq (by simp) _ _

@[simp]
theorem core_setGate (g : Gate) : core (Gated.setGate p g) = (core p).setGate g := rfl

@[simp]
theorem core_setPhase (a : Phase) : core (p.setPhase i a) = (core p).setPhase i a := by
  simp only [core, setPhase, modify, Core.setPhase, Core.mk.injEq, true_and]
  constructor
  · exact map_modify_eq (by simp) _ _
  · exact map_modify_set (by simp) _ _

theorem core_phase? : (core p).phases[i]? = p.phase? i := List.getElem?_map

theorem size_setQueue (r : Ring (Item ι α)) : (p.setQueue i r).size = p.size := by
  simp [size, setQueue, modify]

theorem core_size : (core p).queues.length = p.size := by simp [core, size]

theorem phase?_eq (h : ∀ a ∈ (core p).phases, a = .running) (hi : i < p.size) :
    p.phase? i = some .running := by
  have hw : p.workers[i]? = some p.workers[i] := List.getElem?_eq_getElem hi
  have := h p.workers[i].phase (List.mem_map.2 ⟨_, List.getElem_mem hi, rfl⟩)
  simp [phase?, hw, this]

end Core

section Queues

variable {P R : Type} {p : Rings ι α} {i : Nat}
  {a : Move (Rings ι α) P R}

theorem tryPop_inv {d : Ring.Pop (Item ι α)} {stay : Ring.Pop (Item ι α) → P}
    {finish : Rings ι α → Option (Item ι α) → Move (Rings ι α) P R}
    (ha : a ∈ tryPop p i d stay finish) : ∃ r, (core p).queues[i]? = some r ∧
      ((∃ r' d', .go r' d' ∈ d.moves r ∧ a = .go (p.setQueue i r') (stay d')) ∨
        (∃ r', .done r' none ∈ d.moves r ∧ a = finish (p.setQueue i r') none) ∨
        ∃ r' pos t, .done r' (some (pos, t)) ∈ d.moves r ∧
          a = finish (p.setQueue i r') (some t)) := by
  simp only [tryPop] at ha
  split at ha
  · simp at ha
  · rename_i w hw
    obtain ⟨b, hb, rfl⟩ := List.mem_map.1 ha
    obtain ⟨c, hc, rfl⟩ := List.mem_map.1 hb
    refine ⟨w.queue, by simp [core, hw], ?_⟩
    rcases c with ⟨r', d'⟩ | ⟨r', _ | ⟨pos, t⟩⟩
    · exact .inl ⟨r', d', hc, rfl⟩
    · exact .inr (.inl ⟨r', hc, rfl⟩)
    · exact .inr (.inr ⟨r', pos, t, hc, rfl⟩)

theorem tryPush_inv {e : Ring.Push (Item ι α)} {stay : Ring.Push (Item ι α) → P}
    {finish : Rings ι α → Except (Item ι α) Unit → Move (Rings ι α) P R}
    (ha : a ∈ tryPush p i e stay finish) : ∃ r, (core p).queues[i]? = some r ∧
      ((∃ r' e', .go r' e' ∈ e.moves r ∧ a = .go (p.setQueue i r') (stay e')) ∨
        (∃ r' pos, .done r' (.ok pos) ∈ e.moves r ∧ a = finish (p.setQueue i r') (.ok ())) ∨
        ∃ r' t, .done r' (.error t) ∈ e.moves r ∧
          a = finish (p.setQueue i r') (.error t)) := by
  simp only [tryPush] at ha
  split at ha
  · simp at ha
  · rename_i w hw
    obtain ⟨b, hb, rfl⟩ := List.mem_map.1 ha
    obtain ⟨c, hc, rfl⟩ := List.mem_map.1 hb
    refine ⟨w.queue, by simp [core, hw], ?_⟩
    rcases c with ⟨r', e'⟩ | ⟨r', t | pos⟩
    · exact .inl ⟨r', e', hc, rfl⟩
    · exact .inr (.inr ⟨r', t, hc, rfl⟩)
    · exact .inr (.inl ⟨r', pos, hc, rfl⟩)

end Queues

section Worker

variable {p : Rings ι α} {i : Nat}

inductive Steal.Step (i : Nat) (p : Rings ι α) : Steal (Ring.Pop (Item ι α)) ι α →
    Move (Rings ι α) (Steal (Ring.Pop (Item ι α)) ι α) (Option (Item ι α)) → Prop where
  | aim {o : Nat} (h : o < p.size) : Step i p (.next o)
      (.go (p.bump i fun c => { c with trySteals := c.trySteals + 1 }) (.try o .look))
  | exhaust {o : Nat} (h : p.size ≤ o) : Step i p (.next o) (.done p none)
  | look {o : Nat} {r r' : Ring (Item ι α)} {d d' : Ring.Pop (Item ι α)}
      (hr : (core p).queues[(i + o) % p.size]? = some r) (h : .go r' d' ∈ d.moves r) :
      Step i p (.try o d) (.go (p.setQueue ((i + o) % p.size) r') (.try o d'))
  | miss {o : Nat} {r r' : Ring (Item ι α)} {d : Ring.Pop (Item ι α)}
      (hr : (core p).queues[(i + o) % p.size]? = some r) (h : .done r' none ∈ d.moves r) :
      Step i p (.try o d) (.go (p.setQueue ((i + o) % p.size) r') (.next (o + 1)))
  | find {o : Nat} {r r' : Ring (Item ι α)} {d : Ring.Pop (Item ι α)} {pos : UInt64} {t : Item ι α}
      (hr : (core p).queues[(i + o) % p.size]? = some r)
      (h : .done r' (some (pos, t)) ∈ d.moves r) : Step i p (.try o d)
        (.go ((p.setQueue ((i + o) % p.size) r').note
          (.taken t.closure.label i ((i + o) % p.size))) (.count t))
  | count {t : Item ι α} : Step i p (.count t)
      (.done (p.bump i fun c => { c with steals := c.steals + 1 }) (some t))

theorem Steal.step {s : Steal (Ring.Pop (Item ι α)) ι α}
    {a : Move (Rings ι α) (Steal (Ring.Pop (Item ι α)) ι α) (Option (Item ι α))}
    (ha : a ∈ s.moves i p) : s.Step i p a := by
  cases s with
  | next o =>
    simp only [Steal.moves] at ha
    split at ha
    · rename_i h
      exact List.mem_singleton.1 ha ▸ .aim h
    · rename_i h
      exact List.mem_singleton.1 ha ▸ .exhaust (Nat.le_of_not_lt h)
  | «try» o d =>
    simp only [Steal.moves] at ha
    obtain ⟨r, hr, ⟨r', d', h, rfl⟩ | ⟨r', h, rfl⟩ | ⟨r', pos, t, h, rfl⟩⟩ := tryPop_inv ha
    · exact .look hr h
    · exact .miss hr h
    · exact .find hr h
  | count t => exact List.mem_singleton.1 ha ▸ .count

inductive Recheck.Step (i : Nat) (p : Rings ι α) : Recheck (Ring.Pop (Item ι α)) ι α →
    Move (Rings ι α) (Recheck (Ring.Pop (Item ι α)) ι α) (Option (Finding ι α)) → Prop where
  | begin (h : p.phase? i = some .running) : Step i p .phase (.go p (.own .look))
  | told (h : p.phase? i ≠ some .running) : Step i p .phase (.done p (some .stop))
  | look {r r' : Ring (Item ι α)} {d d' : Ring.Pop (Item ι α)}
      (hr : (core p).queues[i]? = some r) (h : .go r' d' ∈ d.moves r) :
      Step i p (.own d) (.go (p.setQueue i r') (.own d'))
  | miss {r r' : Ring (Item ι α)} {d : Ring.Pop (Item ι α)}
      (hr : (core p).queues[i]? = some r) (h : .done r' none ∈ d.moves r) :
      Step i p (.own d) (.go (p.setQueue i r') (.steal .start))
  | find {r r' : Ring (Item ι α)} {d : Ring.Pop (Item ι α)} {pos : UInt64} {t : Item ι α}
      (hr : (core p).queues[i]? = some r) (h : .done r' (some (pos, t)) ∈ d.moves r) :
      Step i p (.own d)
        (.done ((p.setQueue i r').note (.taken t.closure.label i i)) (some (.task t)))
  | steal {q : Rings ι α} {s s' : Steal (Ring.Pop (Item ι α)) ι α} (h : .go q s' ∈ s.moves i p) :
      Step i p (.steal s) (.go q (.steal s'))
  | stolen {q : Rings ι α} {s : Steal (Ring.Pop (Item ι α)) ι α} {t : Item ι α}
      (h : .done q (some t) ∈ s.moves i p) : Step i p (.steal s) (.done q (some (.task t)))
  | exhaust {q : Rings ι α} {s : Steal (Ring.Pop (Item ι α)) ι α} (h : .done q none ∈ s.moves i p) :
      Step i p (.steal s) (.done q none)

theorem Recheck.step {k : Recheck (Ring.Pop (Item ι α)) ι α}
    {a : Move (Rings ι α) (Recheck (Ring.Pop (Item ι α)) ι α) (Option (Finding ι α))}
    (ha : a ∈ k.moves i p) : k.Step i p a := by
  cases k with
  | phase =>
    simp only [Recheck.moves] at ha
    split at ha
    · rename_i h
      exact List.mem_singleton.1 ha ▸ .begin h
    · rename_i h
      exact List.mem_singleton.1 ha ▸ .told h
  | own d =>
    simp only [Recheck.moves, tryOwn] at ha
    obtain ⟨r, hr, ⟨r', d', h, rfl⟩ | ⟨r', h, rfl⟩ | ⟨r', pos, t, h, rfl⟩⟩ := tryPop_inv ha
    · exact .look hr h
    · exact .miss hr h
    · exact .find hr h
  | steal s =>
    obtain ⟨b, hb, rfl⟩ := List.mem_map.1 ha
    rcases b with ⟨q, s'⟩ | ⟨q, _ | t⟩
    · exact .steal hb
    · exact .exhaust hb
    · exact .stolen hb

inductive SleepStep (i : Nat) (p : Rings ι α) :
    Gate.Sleep (Recheck (Ring.Pop (Item ι α)) ι α) (Finding ι α) →
    Move (Rings ι α) (Gate.Sleep (Recheck (Ring.Pop (Item ι α)) ι α) (Finding ι α))
      (Option (Finding ι α)) → Prop where
  | declare : SleepStep i p .declare (.go (Gated.setGate p p.gate.enter) (.recheck .phase))
  | recheck {q : Rings ι α} {k k' : Recheck (Ring.Pop (Item ι α)) ι α}
      (h : .go q k' ∈ k.moves i p) : SleepStep i p (.recheck k) (.go q (.recheck k'))
  | find {q : Rings ι α} {k : Recheck (Ring.Pop (Item ι α)) ι α} {x : Finding ι α}
      (h : .done q (some x) ∈ k.moves i p) : SleepStep i p (.recheck k) (.go q (.retract x))
  | commit {q : Rings ι α} {k : Recheck (Ring.Pop (Item ι α)) ι α}
      (h : .done q none ∈ k.moves i p) : SleepStep i p (.recheck k) (.go q (.wait .subtract))
  | retract {x : Finding ι α} :
      SleepStep i p (.retract x) (.done (Gated.setGate p p.gate.leave) (some x))
  | sink {s : Semaphore} (h : .go s .acquire ∈ Semaphore.Wait.moves p.gate.semaphore .subtract) :
      SleepStep i p (.wait .subtract)
        (.go (Gated.setGate p (p.gate.setSemaphore s)) (.wait .acquire))
  | pass {w : Semaphore.Wait} {s : Semaphore} (h : .done s () ∈ w.moves p.gate.semaphore) :
      SleepStep i p (.wait w) (.go (Gated.setGate p (p.gate.setSemaphore s)) .wake)
  | wake : SleepStep i p .wake (.done (Gated.setGate p p.gate.leave) none)

theorem sleep_step {s : Gate.Sleep (Recheck (Ring.Pop (Item ι α)) ι α) (Finding ι α)}
    {a : Move (Rings ι α) (Gate.Sleep (Recheck (Ring.Pop (Item ι α)) ι α) (Finding ι α))
      (Option (Finding ι α))}
    (ha : a ∈ s.moves (recheck i) p) : SleepStep i p s a := by
  cases s with
  | declare => exact List.mem_singleton.1 ha ▸ .declare
  | recheck k =>
    obtain ⟨b, hb, rfl⟩ := List.mem_map.1 ha
    rcases b with ⟨q, k'⟩ | ⟨q, _ | x⟩
    · exact .recheck hb
    · exact .commit hb
    · exact .find hb
  | retract x => exact List.mem_singleton.1 ha ▸ .retract
  | wait w =>
    obtain ⟨b, hb, rfl⟩ := List.mem_map.1 ha
    cases b with
    | go s w' =>
      obtain ⟨rfl, rfl⟩ := Semaphore.Wait.eq_of_go hb
      exact .sink hb
    | done s u => exact .pass hb
  | wake => exact List.mem_singleton.1 ha ▸ .wake

inductive Search.Step (i : Nat) (p : Rings ι α) : Search (Ring.Pop (Item ι α)) ι α →
    Move (Rings ι α) (Search (Ring.Pop (Item ι α)) ι α) (Finding ι α) → Prop where
  | begin (h : p.phase? i = some .running) : Step i p .look (.go p (.own .look))
  | told (h : p.phase? i ≠ some .running) : Step i p .look (.done p .stop)
  | look {r r' : Ring (Item ι α)} {d d' : Ring.Pop (Item ι α)}
      (hr : (core p).queues[i]? = some r) (h : .go r' d' ∈ d.moves r) :
      Step i p (.own d) (.go (p.setQueue i r') (.own d'))
  | miss {r r' : Ring (Item ι α)} {d : Ring.Pop (Item ι α)}
      (hr : (core p).queues[i]? = some r) (h : .done r' none ∈ d.moves r) :
      Step i p (.own d) (.go (p.setQueue i r') (.spin p.spinCount))
  | find {r r' : Ring (Item ι α)} {d : Ring.Pop (Item ι α)} {pos : UInt64} {t : Item ι α}
      (hr : (core p).queues[i]? = some r) (h : .done r' (some (pos, t)) ∈ d.moves r) :
      Step i p (.own d) (.done ((p.setQueue i r').note (.taken t.closure.label i i)) (.task t))
  | rest : Step i p (.spin 0) (.go p (.sleep .declare))
  | spin {left : Nat} : Step i p (.spin (left + 1)) (.go p (.steal left .start))
  | steal {q : Rings ι α} {left : Nat} {s s' : Steal (Ring.Pop (Item ι α)) ι α}
      (h : .go q s' ∈ s.moves i p) : Step i p (.steal left s) (.go q (.steal left s'))
  | stolen {q : Rings ι α} {left : Nat} {s : Steal (Ring.Pop (Item ι α)) ι α} {t : Item ι α}
      (h : .done q (some t) ∈ s.moves i p) : Step i p (.steal left s) (.done q (.task t))
  | exhaust {q : Rings ι α} {left : Nat} {s : Steal (Ring.Pop (Item ι α)) ι α}
      (h : .done q none ∈ s.moves i p) : Step i p (.steal left s) (.go q (.spin left))
  | sleep {q : Rings ι α} {s s' : Gate.Sleep (Recheck (Ring.Pop (Item ι α)) ι α) (Finding ι α)}
      (h : .go q s' ∈ s.moves (recheck i) p) : Step i p (.sleep s) (.go q (.sleep s'))
  | found {q : Rings ι α} {s : Gate.Sleep (Recheck (Ring.Pop (Item ι α)) ι α) (Finding ι α)}
      {t : Item ι α} (h : .done q (some (.task t)) ∈ s.moves (recheck i) p) :
      Step i p (.sleep s) (.done q (.task t))
  | roused {q : Rings ι α} {s : Gate.Sleep (Recheck (Ring.Pop (Item ι α)) ι α) (Finding ι α)}
      (h : .done q (some .stop) ∈ s.moves (recheck i) p) : Step i p (.sleep s) (.go q .look)
  | woken {q : Rings ι α} {s : Gate.Sleep (Recheck (Ring.Pop (Item ι α)) ι α) (Finding ι α)}
      (h : .done q none ∈ s.moves (recheck i) p) : Step i p (.sleep s) (.go q .count)
  | count : Step i p .count
      (.go (p.bump i fun c => { c with semaphoreWaits := c.semaphoreWaits + 1 }) .look)

theorem Search.step {s : Search (Ring.Pop (Item ι α)) ι α}
    {a : Move (Rings ι α) (Search (Ring.Pop (Item ι α)) ι α) (Finding ι α)}
    (ha : a ∈ s.moves i p) : s.Step i p a := by
  cases s with
  | look =>
    simp only [Search.moves] at ha
    split at ha
    · rename_i h
      exact List.mem_singleton.1 ha ▸ .begin h
    · rename_i h
      exact List.mem_singleton.1 ha ▸ .told h
  | own d =>
    simp only [Search.moves, tryOwn] at ha
    obtain ⟨r, hr, ⟨r', d', h, rfl⟩ | ⟨r', h, rfl⟩ | ⟨r', pos, t, h, rfl⟩⟩ := tryPop_inv ha
    · exact .look hr h
    · exact .miss hr h
    · exact .find hr h
  | spin left =>
    cases left with
    | zero => exact List.mem_singleton.1 ha ▸ .rest
    | succ left => exact List.mem_singleton.1 ha ▸ .spin
  | steal left s =>
    obtain ⟨b, hb, rfl⟩ := List.mem_map.1 ha
    rcases b with ⟨q, s'⟩ | ⟨q, _ | t⟩
    · exact .steal hb
    · exact .exhaust hb
    · exact .stolen hb
  | sleep s =>
    obtain ⟨b, hb, rfl⟩ := List.mem_map.1 ha
    rcases b with ⟨q, s'⟩ | ⟨q, _ | t | _⟩
    · exact .sleep hb
    · exact .woken hb
    · exact .found hb
    · exact .roused hb
  | count => exact List.mem_singleton.1 ha ▸ .count

inductive Loop.Step (i : Nat) (p : Rings ι α) : Loop (Ring.Pop (Item ι α)) ι α →
    TurnMove (Ring (Item ι α)) ι α (Loop (Ring.Pop (Item ι α)) ι α) → Prop where
  | search {q : Rings ι α} {s s' : Search (Ring.Pop (Item ι α)) ι α}
      (h : .go q s' ∈ s.moves i p) : Step i p (.search s) (.go q (.stay (.search s')))
  | found {q : Rings ι α} {s : Search (Ring.Pop (Item ι α)) ι α} {t : Item ι α}
      (h : .done q (.task t) ∈ s.moves i p) :
      Step i p (.search s) (.go q (.call .working (.run t)))
  | told {q : Rings ι α} {s : Search (Ring.Pop (Item ι α)) ι α}
      (h : .done q .stop ∈ s.moves i p) : Step i p (.search s) (.go q (.stay .stop))
  | countPanic {text : String} : Step i p (.countPanic text)
      (.go (p.bump i fun c => { c with panics := c.panics + 1 }) (.stay (.reportPanic text)))
  | reportPanic {text : String} : Step i p (.reportPanic text)
      (.go (p.note (.notice (.panicked i text))) (.stay .countRun))
  | reportAbort {text : String} : Step i p (.reportAbort text)
      (.go (p.note (.notice (.aborting i text))) (.stay .abort))
  | abort : Step i p .abort (.go { p with aborted := true } (.stay .working))
  | countRun : Step i p .countRun
      (.go (p.bump i fun c => { c with tasksRun := c.tasksRun + 1 }) (.stay (.search .look)))
  | stop : Step i p .stop (.done (p.setPhase i .stopped) .returned)

theorem Loop.step {l : Loop (Ring.Pop (Item ι α)) ι α}
    {a : TurnMove (Ring (Item ι α)) ι α (Loop (Ring.Pop (Item ι α)) ι α)}
    (ha : a ∈ l.moves i p) : l.Step i p a := by
  cases l with
  | search s =>
    obtain ⟨b, hb, rfl⟩ := List.mem_map.1 ha
    rcases b with ⟨q, s'⟩ | ⟨q, t | _⟩
    · exact .search hb
    · exact .found hb
    · exact .told hb
  | working => cases ha
  | countPanic text => exact List.mem_singleton.1 ha ▸ .countPanic
  | reportPanic text => exact List.mem_singleton.1 ha ▸ .reportPanic
  | reportAbort text => exact List.mem_singleton.1 ha ▸ .reportAbort
  | abort => exact List.mem_singleton.1 ha ▸ .abort
  | countRun => exact List.mem_singleton.1 ha ▸ .countRun
  | stop => exact List.mem_singleton.1 ha ▸ .stop

end Worker

section Client

variable {p : Rings ι α} {place : Place} {t : Item ι α}

theorem handOver_inv {X : Type} {slot : Nat} {d : ResultSlot.Deliver α}
    {stay : ResultSlot.Deliver α → X}
    {finish : Rings ι α → Completer → TurnMove (Ring (Item ι α)) ι α X}
    {a : TurnMove (Ring (Item ι α)) ι α X} (ha : a ∈ handOver p slot d stay finish) :
    ∃ z, p.slots[slot]? = some z ∧
      ((∃ z' d', .go z' d' ∈ d.moves z ∧ a = .go (p.setSlot slot z') (.stay (stay d'))) ∨
        ∃ z' c, .done z' c ∈ d.moves z ∧ a = finish (p.setSlot slot z') c) := by
  simp only [handOver] at ha
  split at ha
  · simp at ha
  · rename_i z hz
    obtain ⟨b, hb, rfl⟩ := List.mem_map.1 ha
    cases b with
    | go z' d' => exact ⟨z, hz, .inl ⟨z', d', hb, rfl⟩⟩
    | done z' c => exact ⟨z, hz, .inr ⟨z', c, hb, rfl⟩⟩

inductive Run.Step (place : Place) (t : Item ι α) (p : Rings ι α) :
    Run ι α → TurnMove (Ring (Item ι α)) ι α (Run ι α) → Prop where
  | hold {i : Nat} (h : t.closure.holds? place = some i) : Step place t p .begin
      (.go ((p.setHeld i true).note (.began t.closure.label place true)) (.stay .held))
  | begin (h : t.closure.holds? place = none) : Step place t p .begin
      (.go (p.note (.began t.closure.label place false)) (.stay (afterBegin place t)))
  | letGo (h : isLetGo place p = true) :
      Step place t p .held (.go p (.stay (.leave (outcome place t))))
  | finish : Step place t p (.children []) (.go p (.stay (.leave (outcome place t))))
  | spawn {o : Order ι α} {left : List (Order ι α)} :
      Step place t p (.children (o :: left)) (.go p (.call (.submitting left) (.submit o)))
  | deliver {slot : Nat} {z z' : ResultSlot α} {w : Writer} {d d' : ResultSlot.Deliver α}
      {o : Outcome} (hz : p.slots[slot]? = some z) (h : .go z' d' ∈ d.moves z) :
      Step place t p (.deliver slot w d o)
        (.go (p.setSlot slot z') (.stay (.deliver slot w d' o)))
  | delivered {slot : Nat} {z z' : ResultSlot α} {w : Writer} {d : ResultSlot.Deliver α}
      {o : Outcome} {c : Completer} (hz : p.slots[slot]? = some z) (h : .done z' c ∈ d.moves z) :
      Step place t p (.deliver slot w d o) (.go (p.setSlot slot z') (.stay (.leave o)))
  | leave {o : Outcome} :
      Step place t p (.leave o) (.done (p.note (.ended t.closure.label place)) o)

theorem Run.step {r : Run ι α} {a : TurnMove (Ring (Item ι α)) ι α (Run ι α)}
    (ha : a ∈ r.moves place t p) : r.Step place t p a := by
  cases r with
  | begin =>
    simp only [Run.moves] at ha
    split at ha
    · rename_i h
      exact List.mem_singleton.1 ha ▸ .hold h
    · rename_i h
      exact List.mem_singleton.1 ha ▸ .begin h
  | held =>
    simp only [Run.moves] at ha
    split at ha
    · rename_i h
      exact List.mem_singleton.1 ha ▸ .letGo h
    · cases ha
  | children left =>
    cases left with
    | nil => exact List.mem_singleton.1 ha ▸ .finish
    | cons o left => exact List.mem_singleton.1 ha ▸ .spawn
  | submitting left => cases ha
  | deliver slot w d o =>
    simp only [Run.moves] at ha
    obtain ⟨z, hz, ⟨z', d', h, rfl⟩ | ⟨z', c, h, rfl⟩⟩ := handOver_inv ha
    · exact .deliver hz h
    · -- the destructor finds that the completer has delivered
      obtain rfl := ResultSlot.Deliver.eq_of_done h
      cases w <;> exact .delivered hz h
  | leave o =>
    rw [Run.moves_leave] at ha
    exact List.mem_singleton.1 ha ▸ .leave

inductive Push.Step (p : Rings ι α) : Push (Ring.Push (Item ι α)) ι α →
    Move (Rings ι α) (Push (Ring.Push (Item ι α)) ι α) (Except (Item ι α) Nat) → Prop where
  | aim {t : Item ι α} :
      Step p (.aim t) (.go p (.offer t (p.lastPlaced + 1) 0 (.look t)))
  | offer {t : Item ι α} {start o : Nat} {r r' : Ring (Item ι α)} {e e' : Ring.Push (Item ι α)}
      (hr : (core p).queues[(start + o) % p.size]? = some r) (h : .go r' e' ∈ e.moves r) :
      Step p (.offer t start o e) (.go (p.setQueue ((start + o) % p.size) r') (.offer t start o e'))
  | place {t : Item ι α} {start o : Nat} {r r' : Ring (Item ι α)} {e : Ring.Push (Item ι α)}
      {pos : UInt64} (hr : (core p).queues[(start + o) % p.size]? = some r)
      (h : .done r' (.ok pos) ∈ e.moves r) : Step p (.offer t start o e)
        (.go ((p.setQueue ((start + o) % p.size) r').note
          (.queued t.closure.label ((start + o) % p.size))) (.record ((start + o) % p.size)))
  | next {t u : Item ι α} {start o : Nat} {r r' : Ring (Item ι α)} {e : Ring.Push (Item ι α)}
      (hr : (core p).queues[(start + o) % p.size]? = some r) (h : .done r' (.error u) ∈ e.moves r)
      (ho : o + 1 < p.size) : Step p (.offer t start o e)
        (.go (p.setQueue ((start + o) % p.size) r') (.offer u start (o + 1) (.look u)))
  | refuse {t u : Item ι α} {start o : Nat} {r r' : Ring (Item ι α)} {e : Ring.Push (Item ι α)}
      (hr : (core p).queues[(start + o) % p.size]? = some r) (h : .done r' (.error u) ∈ e.moves r)
      (ho : p.size ≤ o + 1) : Step p (.offer t start o e)
        (.done (p.setQueue ((start + o) % p.size) r') (.error u))
  | record {j : Nat} : Step p (.record j) (.done { p with lastPlaced := j } (.ok j))

theorem Push.step {s : Push (Ring.Push (Item ι α)) ι α}
    {a : Move (Rings ι α) (Push (Ring.Push (Item ι α)) ι α) (Except (Item ι α) Nat)}
    (ha : a ∈ s.moves p) : s.Step p a := by
  cases s with
  | aim t => exact List.mem_singleton.1 ha ▸ .aim
  | offer t start o e =>
    simp only [Push.moves] at ha
    obtain ⟨r, hr, ⟨r', e', h, rfl⟩ | ⟨r', pos, h, rfl⟩ | ⟨r', u, h, rfl⟩⟩ := tryPush_inv ha
    · exact .offer hr h
    · exact .place hr h
    · dsimp only
      split
      · rename_i ho
        exact .next hr h (size_setQueue p _ r' ▸ ho)
      · rename_i ho
        exact .refuse hr h (Nat.le_of_not_lt (size_setQueue p _ r' ▸ ho))
  | record j => exact List.mem_singleton.1 ha ▸ .record

inductive Wake.Step (p : Rings ι α) : Wake → Move (Rings ι α) Wake Unit → Prop where
  | notify {n m : Gate.Notify} {g : Gate} (h : n.Taken p.gate (.go g m)) :
      Step p (.notify n) (.go (Gated.setGate p g) (.notify m))
  | notified {n : Gate.Notify} {g : Gate} {k : Nat} (h : n.Taken p.gate (.done g k)) :
      Step p (.notify n) (.go (Gated.setGate p g) (.count k))
  | count {k : Nat} :
      Step p (.count k) (.done { p with semaphorePosts := p.semaphorePosts + k } ())

theorem Wake.step {w : Wake} {a : Move (Rings ι α) Wake Unit} (ha : a ∈ w.moves p) :
    w.Step p a := by
  cases w with
  | notify n =>
    obtain ⟨b, hb, rfl⟩ := List.mem_map.1 ha
    cases b with
    | go g m => exact .notify (Gate.Notify.taken hb)
    | done g k => exact .notified (Gate.Notify.taken hb)
  | count k => exact List.mem_singleton.1 ha ▸ .count

variable [BEq ι]

inductive Submit.Step (p : Rings ι α) : Submit (Ring.Push (Item ι α)) ι α →
    TurnMove (Ring (Item ι α)) ι α (Submit (Ring.Push (Item ι α)) ι α) → Prop where
  | answer {id : ι} {layout : Layout} {v : α} {panic : Option Payload} :
      Step p (.begin (.task id layout (.answer v) panic))
        (.go { p with slots := p.slots ++ [{}] }
          (.stay (.push (.aim ⟨layout, .task id (.answer v) panic (some p.slots.length)⟩)
            (some (id, p.slots.length)))))
  | task {id : ι} {layout : Layout} {work : Work α (Order ι α)} {panic : Option Payload}
      (h : ∀ v, work ≠ .answer v) : Step p (.begin (.task id layout work panic))
        (.go p (.stay (.push (.aim ⟨layout, .task id work panic none⟩) none)))
  | range {id : ι} {lo hi : UInt64} {panic : Option RangePanic} (h : lo < hi) :
      Step p (.begin (.range id lo hi panic)) (.go p (.stay (.cut
        ⟨id, hi, Range.granularity p.size p.minGranularity lo hi, panic⟩ lo 0)))
  | empty {id : ι} {lo hi : UInt64} {panic : Option RangePanic} (h : ¬ lo < hi) :
      Step p (.begin (.range id lo hi panic)) (.go p (.stay (.leave .returned)))
  | push {q : Rings ι α} {s s' : Push (Ring.Push (Item ι α)) ι α} {handle? : Option (ι × Nat)}
      (h : .go q s' ∈ s.moves p) : Step p (.push s handle?) (.go q (.stay (.push s' handle?)))
  | pushed {q : Rings ι α} {s : Push (Ring.Push (Item ι α)) ι α} {handle? : Option (ι × Nat)}
      {j : Nat} (h : .done q (.ok j) ∈ s.moves p) :
      Step p (.push s handle?) (.go q (.stay (.wake .one handle?)))
  | refused {q : Rings ι α} {s : Push (Ring.Push (Item ι α)) ι α} {handle? : Option (ι × Nat)}
      {t : Item ι α} (h : .done q (.error t) ∈ s.moves p) :
      Step p (.push s handle?) (.go q (.call (.inline handle?) (.run t)))
  | wake {q : Rings ι α} {w w' : Wake} {handle? : Option (ι × Nat)} (h : .go q w' ∈ w.moves p) :
      Step p (.wake w handle?) (.go q (.stay (.wake w' handle?)))
  | woken {q : Rings ι α} {w : Wake} {handle? : Option (ι × Nat)} (h : .done q () ∈ w.moves p) :
      Step p (.wake w handle?) (.go q (.stay (afterInline handle?)))
  | keep {handle : ι × Nat} : Step p (.keep handle)
      (.go { p with handles := handle :: p.handles.filter fun h => !h.1 == handle.1 }
        (.stay (.leave .returned)))
  | cut {r : RangeCall ι} {start : UInt64} {pushed : Nat} (h : start < r.hi) :
      Step p (.cut r start pushed)
        (.go p (.stay (.pushChunk r start pushed (.aim (r.chunk start (r.stop start))))))
  | whole {r : RangeCall ι} {start : UInt64} {pushed : Nat} (h : ¬ start < r.hi) :
      Step p (.cut r start pushed) (.go p (.stay (.wakeAll r start (.upTo pushed))))
  | pushChunk {q : Rings ι α} {r : RangeCall ι} {start : UInt64} {pushed : Nat}
      {s s' : Push (Ring.Push (Item ι α)) ι α} (h : .go q s' ∈ s.moves p) :
      Step p (.pushChunk r start pushed s) (.go q (.stay (.pushChunk r start pushed s')))
  | chunkPushed {q : Rings ι α} {r : RangeCall ι} {start : UInt64} {pushed j : Nat}
      {s : Push (Ring.Push (Item ι α)) ι α} (h : .done q (.ok j) ∈ s.moves p) :
      Step p (.pushChunk r start pushed s) (.go q (.stay (.cut r (r.stop start) (pushed + 1))))
  | chunkRefused {q : Rings ι α} {r : RangeCall ι} {start : UInt64} {pushed : Nat}
      {s : Push (Ring.Push (Item ι α)) ι α} {t : Item ι α} (h : .done q (.error t) ∈ s.moves p) :
      Step p (.pushChunk r start pushed s) (.go q (.stay (.wakeAll r start (.upTo pushed))))
  | wakeAll {q : Rings ι α} {r : RangeCall ι} {start : UInt64} {w w' : Wake}
      (h : .go q w' ∈ w.moves p) :
      Step p (.wakeAll r start w) (.go q (.stay (.wakeAll r start w')))
  | rest {q : Rings ι α} {r : RangeCall ι} {start : UInt64} {w : Wake} (h : .done q () ∈ w.moves p)
      (hlt : start < r.hi) : Step p (.wakeAll r start w)
        (.go q (.call (.inline none) (.run (r.chunk start r.hi))))
  | finish {q : Rings ι α} {r : RangeCall ι} {start : UInt64} {w : Wake}
      (h : .done q () ∈ w.moves p) (hge : ¬ start < r.hi) :
      Step p (.wakeAll r start w) (.go q (.stay (.leave .returned)))
  | leave {o : Outcome} : Step p (.leave o) (.done p o)

theorem Submit.step {s : Submit (Ring.Push (Item ι α)) ι α}
    {a : TurnMove (Ring (Item ι α)) ι α (Submit (Ring.Push (Item ι α)) ι α)}
    (ha : a ∈ s.moves p) : s.Step p a := by
  cases s with
  | begin o =>
    obtain rfl := List.mem_singleton.1 ha
    cases o with
    | task id layout work panic =>
      cases work with
      | answer v => exact .answer
      | _ => exact .task nofun
    | range id lo hi panic =>
      simp only [Submit.accept]
      split
      · rename_i h
        exact .range h
      · rename_i h
        exact .empty h
  | push s handle? =>
    obtain ⟨b, hb, rfl⟩ := List.mem_map.1 ha
    rcases b with ⟨q, s'⟩ | ⟨q, t | j⟩
    · exact .push hb
    · exact .refused hb
    · exact .pushed hb
  | wake w handle? =>
    obtain ⟨b, hb, rfl⟩ := List.mem_map.1 ha
    cases b with
    | go q w' => exact .wake hb
    | done q u => exact .woken hb
  | inline handle? => cases ha
  | keep handle => exact List.mem_singleton.1 ha ▸ .keep
  | cut r start pushed =>
    simp only [Submit.moves] at ha
    split at ha
    · rename_i h
      exact List.mem_singleton.1 ha ▸ .cut h
    · rename_i h
      exact List.mem_singleton.1 ha ▸ .whole h
  | pushChunk r start pushed s =>
    obtain ⟨b, hb, rfl⟩ := List.mem_map.1 ha
    rcases b with ⟨q, s'⟩ | ⟨q, t | j⟩
    · exact .pushChunk hb
    · exact .chunkRefused hb
    · exact .chunkPushed hb
  | wakeAll r start w =>
    obtain ⟨b, hb, rfl⟩ := List.mem_map.1 ha
    cases b with
    | go q w' => exact .wakeAll hb
    | done q u =>
      dsimp only [Move.embed]
      split
      · rename_i h
        exact .rest hb h
      · rename_i h
        exact .finish hb h
  | leave o => exact List.mem_singleton.1 ha ▸ .leave

end Client

section Closing

variable {p : Rings ι α} {unwinding : Bool}

inductive Shutdown.Step (unwinding : Bool) (p : Rings ι α) : Shutdown (Ring.Pop (Item ι α)) ι α →
    TurnMove (Ring (Item ι α)) ι α (Shutdown (Ring.Pop (Item ι α)) ι α) → Prop where
  | begin : Step unwinding p .begin (.go (p.note (.notice .shutdownInitiated)) (.stay (.mark 0)))
  | tell {i : Nat} (hi : i < p.size) (h : p.phase? i = some .running) :
      Step unwinding p (.mark i) (.go (p.setPhase i .stopping) (.stay (.mark (i + 1))))
  | skip {i : Nat} (hi : i < p.size) (h : p.phase? i ≠ some .running) :
      Step unwinding p (.mark i) (.go p (.stay (.mark (i + 1))))
  | marked {i : Nat} (hi : p.size ≤ i) :
      Step unwinding p (.mark i) (.go p (.stay (.join (List.range p.size) [])))
  | join {i : Nat} {waiting seen : List Nat} (h : p.phase? i = some .stopped) :
      Step unwinding p (.join (i :: waiting) seen) (.go p (.stay (.join waiting seen)))
  | see {i : Nat} {waiting seen : List Nat} (h : p.phase? i ≠ some .stopped) :
      Step unwinding p (.join (i :: waiting) seen) (.go p (.stay (.join waiting (seen ++ [i]))))
  | joined : Step unwinding p (.join [] []) (.go p (.stay (.drain 0 .look 0)))
  | call {i : Nat} {seen : List Nat} :
      Step unwinding p (.join [] (i :: seen)) (.go p (.stay (.notify (i :: seen) .all)))
  | notify {waiting : List Nat} {n m : Gate.Notify} {g : Gate} (h : n.Taken p.gate (.go g m)) :
      Step unwinding p (.notify waiting n) (.go (Gated.setGate p g) (.stay (.notify waiting m)))
  | notified {waiting : List Nat} {n : Gate.Notify} {g : Gate} {k : Nat}
      (h : n.Taken p.gate (.done g k)) :
      Step unwinding p (.notify waiting n) (.go (Gated.setGate p g) (.stay (.join waiting [])))
  | look {i k : Nat} {r r' : Ring (Item ι α)} {d d' : Ring.Pop (Item ι α)} (hi : i < p.size)
      (hr : (core p).queues[i]? = some r) (h : .go r' d' ∈ d.moves r) :
      Step unwinding p (.drain i d k) (.go (p.setQueue i r') (.stay (.drain i d' k)))
  | miss {i k : Nat} {r r' : Ring (Item ι α)} {d : Ring.Pop (Item ι α)} (hi : i < p.size)
      (hr : (core p).queues[i]? = some r) (h : .done r' none ∈ d.moves r) :
      Step unwinding p (.drain i d k) (.go (p.setQueue i r') (.stay (.drain (i + 1) .look k)))
  | find {i k : Nat} {r r' : Ring (Item ι α)} {d : Ring.Pop (Item ι α)} {pos : UInt64}
      {t : Item ι α} (hi : i < p.size) (hr : (core p).queues[i]? = some r)
      (h : .done r' (some (pos, t)) ∈ d.moves r) : Step unwinding p (.drain i d k)
        (.go (p.setQueue i r') (.stay (discard unwinding i t k)))
  | drained {i k : Nat} {d : Ring.Pop (Item ι α)} (hi : p.size ≤ i) :
      Step unwinding p (.drain i d k) (.go p (.stay (.report k)))
  | cancel {i k slot : Nat} {t : Item ι α} {z z' : ResultSlot α} {d d' : ResultSlot.Deliver α}
      (hz : p.slots[slot]? = some z) (h : .go z' d' ∈ d.moves z) :
      Step unwinding p (.cancel i t slot d k)
        (.go (p.setSlot slot z') (.stay (.cancel i t slot d' k)))
  | cancelled {i k slot : Nat} {t : Item ι α} {z z' : ResultSlot α} {d : ResultSlot.Deliver α}
      {c : Completer} (hz : p.slots[slot]? = some z) (h : .done z' c ∈ d.moves z) :
      Step unwinding p (.cancel i t slot d k) (.go (p.setSlot slot z') (.stay (.drop i t k)))
  | drop {i k : Nat} {t : Item ι α} : Step unwinding p (.drop i t k)
      (.go (p.note (.dropped t.closure.label)) (.stay (.drain i .look (k + 1))))
  | report {k : Nat} (h : k ≠ 0) :
      Step unwinding p (.report k) (.go (p.note (.notice (.dropped k))) (.stay .complete))
  | silent : Step unwinding p (.report 0) (.go p (.stay .complete))
  | complete : Step unwinding p .complete (.done (p.note (.notice .shutdownComplete)) .returned)

theorem Shutdown.step {s : Shutdown (Ring.Pop (Item ι α)) ι α}
    {a : TurnMove (Ring (Item ι α)) ι α (Shutdown (Ring.Pop (Item ι α)) ι α)}
    (ha : a ∈ s.moves unwinding p) : s.Step unwinding p a := by
  cases s with
  | begin => exact List.mem_singleton.1 ha ▸ .begin
  | mark i =>
    simp only [Shutdown.moves] at ha
    split at ha
    · rename_i hi
      obtain rfl := List.mem_singleton.1 ha
      split
      · rename_i h
        exact .tell hi h
      · rename_i h
        exact .skip hi h
    · rename_i hi
      exact List.mem_singleton.1 ha ▸ .marked (Nat.le_of_not_lt hi)
  | join waiting seen =>
    cases waiting with
    | cons i waiting =>
      obtain rfl := List.mem_singleton.1 ha
      split
      · rename_i h
        exact .join h
      · rename_i h
        exact .see h
    | nil =>
      cases seen with
      | nil => exact List.mem_singleton.1 ha ▸ .joined
      | cons i seen => exact List.mem_singleton.1 ha ▸ .call
  | notify waiting n =>
    obtain ⟨b, hb, rfl⟩ := List.mem_map.1 ha
    cases b with
    | go g m => exact .notify (Gate.Notify.taken hb)
    | done g k => exact .notified (Gate.Notify.taken hb)
  | drain i d k =>
    simp only [Shutdown.moves] at ha
    split at ha
    · rename_i hi
      obtain ⟨r, hr, ⟨r', d', h, rfl⟩ | ⟨r', h, rfl⟩ | ⟨r', pos, t, h, rfl⟩⟩ := tryPop_inv ha
      · exact .look hi hr h
      · exact .miss hi hr h
      · exact .find hi hr h
    · rename_i hi
      exact List.mem_singleton.1 ha ▸ .drained (Nat.le_of_not_lt hi)
  | cancel i t slot d k =>
    simp only [Shutdown.moves] at ha
    obtain ⟨z, hz, ⟨z', d', h, rfl⟩ | ⟨z', c, h, rfl⟩⟩ := handOver_inv ha
    · exact .cancel hz h
    · exact .cancelled hz h
  | drop i t k =>
    rw [Shutdown.moves_drop] at ha
    exact List.mem_singleton.1 ha ▸ .drop
  | report k =>
    obtain rfl := List.mem_singleton.1 ha
    split
    · rename_i h
      exact h ▸ .silent
    · rename_i h
      exact .report h
  | complete => exact List.mem_singleton.1 ha ▸ .complete

end Closing

end Pool

end WorkStealing
