import WorkStealing.Proofs.Pool.Step

namespace WorkStealing

/-- What a step leads to, read off the point reached or else the result. -/
def Move.read {S P R V : Type} (f : P → V) (g : R → V) : Move S P R → V
  | .go _ p => f p
  | .done _ r => g r

namespace Pool

variable {ι α : Type}

section Worker

variable {p : Rings ι α} {i n : Nat}

def Steal.view (i n : Nat) (nap : Bool) : Steal (Ring.Pop (Item ι α)) ι α → View (Item ι α)
  | .next o => if nap then .recheck i o else .away
  | .try o d => .pop ((i + o) % n) d (if nap then some (i, o) else none)
  | .count t => .hold t nap

def Steal.outcome (i : Nat) (nap : Bool) : Option (Item ι α) → View (Item ι α)
  | none => if nap then .committed i else .away
  | some t => .hold t nap

theorem Steal.effect (nap : Bool) {s : Steal (Ring.Pop (Item ι α)) ι α}
    {a : Move (Rings ι α) (Steal (Ring.Pop (Item ι α)) ι α) (Option (Item ι α))}
    (hn : p.size = n) (ha : a ∈ s.moves i p) :
    Effect n (core p) (s.view i n nap) .none (core a.state)
      (a.read (Steal.view i n nap) (Steal.outcome i nap)) := by
  subst hn
  cases Steal.step ha with
  | aim h =>
    rw [Move.state, core_bump]
    cases nap with
    | false => exact .still (.pop _)
    | true => exact .still (.recheck h)
  | exhaust h =>
    cases nap with
    | false => exact .still .away
    | true => exact .still (.commit h)
  | look hr h =>
    rw [Move.state, core_setQueue]
    exact .popping hr h
  | miss hr h =>
    rw [Move.state, core_setQueue]
    cases nap with
    | false => exact .missed hr h
    | true => exact .passed hr h
  | find hr h =>
    rw [Move.state, core_note, core_setQueue]
    cases nap <;> exact .hit hr h
  | @count t =>
    rw [Move.state, core_bump]
    exact .still (.hold t nap)

def Recheck.view (i n : Nat) : Recheck (Ring.Pop (Item ι α)) ι α → View (Item ι α)
  | .phase => .recheck i 0
  | .own d => .pop i d (some (i, 0))
  | .steal s => s.view i n true

def Recheck.outcome (i : Nat) : Option (Finding ι α) → View (Item ι α)
  | none => .committed i
  | some (.task t) => .hold t true
  | some .stop => .waking

theorem Recheck.effect {k : Recheck (Ring.Pop (Item ι α)) ι α}
    {a : Move (Rings ι α) (Recheck (Ring.Pop (Item ι α)) ι α) (Option (Finding ι α))}
    (hn : p.size = n) (hi : i < n) (ha : a ∈ k.moves i p) :
    Effect n (core p) (k.view i n) .none (core a.state)
      (a.read (Recheck.view i n) (Recheck.outcome i)) := by
  have hmod : (i + 0) % n = i := Nat.mod_eq_of_lt hi
  cases Recheck.step ha with
  | begin h =>
    have he : Effect n (core p) (.recheck i 0) .none (core p)
        (.pop ((i + 0) % n) .look (some (i, 0))) := .still (.recheck (by omega))
    rwa [hmod] at he
  | told h => exact .still (.giveUp i)
  | look hr h =>
    rw [Move.state, core_setQueue]
    exact .popping hr h
  | @miss r r' d hr h =>
    have he : Effect n (core p) (.pop ((i + 0) % n) d (some (i, 0))) .none
        ((core p).setQueue ((i + 0) % n) r') (.recheck i 1) := .passed (hmod.symm ▸ hr) h
    rw [hmod] at he
    rw [Move.state, core_setQueue]
    exact he
  | find hr h =>
    rw [Move.state, core_note, core_setQueue]
    exact .hit hr h
  | steal h | stolen h | exhaust h => exact Steal.effect true hn h

def sleepView (i n : Nat) :
    Gate.Sleep (Recheck (Ring.Pop (Item ι α)) ι α) (Finding ι α) → View (Item ι α)
  | .declare => .away
  | .recheck k => k.view i n
  | .retract (.task t) => .hold t true
  | .retract .stop => .waking
  | .wait .subtract => .committed i
  | .wait .acquire => .acquiring i
  | .wake => .waking

def sleepOutcome : Option (Finding ι α) → View (Item ι α)
  | some (.task t) => .hold t false
  | _ => .away

theorem sleep_effect {s : Gate.Sleep (Recheck (Ring.Pop (Item ι α)) ι α) (Finding ι α)}
    {a : Move (Rings ι α) (Gate.Sleep (Recheck (Ring.Pop (Item ι α)) ι α) (Finding ι α))
      (Option (Finding ι α))}
    (hn : p.size = n) (hi : i < n) (ha : a ∈ s.moves (recheck i) p) :
    Effect n (core p) (sleepView i n s) .none (core a.state)
      (a.read (sleepView i n) sleepOutcome) := by
  cases sleep_step ha with
  | declare =>
    rw [Move.state, core_setGate]
    exact .declare
  | recheck h | commit h => exact Recheck.effect hn hi h
  | @find q k x h =>
    have he := Recheck.effect hn hi h
    cases x <;> exact he
  | @retract x =>
    rw [Move.state, core_setGate]
    cases x with
    | task t => exact .retract
    | stop => exact .wake
  | sink h => exact .sink h
  | @pass w s h =>
    cases w with
    | subtract => exact .pass h
    | acquire => exact .acquire h
  | wake =>
    rw [Move.state, core_setGate]
    exact .wake

def Search.view (i n : Nat) : Search (Ring.Pop (Item ι α)) ι α → View (Item ι α)
  | .own d => .pop i d none
  | .steal _ s => s.view i n false
  | .sleep s => sleepView i n s
  | _ => .away

def Finding.view : Finding ι α → View (Item ι α)
  | .task t => .hold t false
  | .stop => .away

theorem Search.effect {s : Search (Ring.Pop (Item ι α)) ι α}
    {a : Move (Rings ι α) (Search (Ring.Pop (Item ι α)) ι α) (Finding ι α)}
    (hn : p.size = n) (hi : i < n) (ha : a ∈ s.moves i p) :
    Effect n (core p) (s.view i n) .none (core a.state)
      (a.read (Search.view i n) Finding.view) := by
  cases Search.step ha with
  | begin h => exact .still (.pop _)
  | told h | rest | spin => exact .still .away
  | look hr h =>
    rw [Move.state, core_setQueue]
    exact .popping hr h
  | miss hr h =>
    rw [Move.state, core_setQueue]
    exact .missed hr h
  | find hr h =>
    rw [Move.state, core_note, core_setQueue]
    exact .hit hr h
  | steal h | stolen h | exhaust h => exact Steal.effect false hn h
  | sleep h | found h | roused h | woken h => exact sleep_effect hn hi h
  | count =>
    rw [Move.state, core_bump]
    exact .still .away

section Serving

def Finding.Serving : Finding ι α → Prop
  | .task _ => True
  | .stop => False

def SleepServing : Gate.Sleep (Recheck (Ring.Pop (Item ι α)) ι α) (Finding ι α) → Prop
  | .retract x => x.Serving
  | _ => True

def Search.Serving : Search (Ring.Pop (Item ι α)) ι α → Prop
  | .sleep s => SleepServing s
  | _ => True

variable (hi : i < p.size) (hp : ∀ a ∈ (core p).phases, a = .running)

include hi hp

theorem Recheck.serving {k : Recheck (Ring.Pop (Item ι α)) ι α}
    {a : Move (Rings ι α) (Recheck (Ring.Pop (Item ι α)) ι α) (Option (Finding ι α))}
    (ha : a ∈ k.moves i p) : a.read (fun _ => True) fun x => ∀ y ∈ x, y.Serving := by
  cases Recheck.step ha with
  | told h => exact absurd (phase?_eq p i hp hi) h
  | find _ _ | stolen _ =>
    rintro y ⟨⟩
    trivial
  | exhaust h => rintro y ⟨⟩
  | _ => trivial

theorem sleep_serving {s : Gate.Sleep (Recheck (Ring.Pop (Item ι α)) ι α) (Finding ι α)}
    {a : Move (Rings ι α) (Gate.Sleep (Recheck (Ring.Pop (Item ι α)) ι α) (Finding ι α))
      (Option (Finding ι α))}
    (hs : SleepServing s) (ha : a ∈ s.moves (recheck i) p) :
    a.read SleepServing fun x => ∀ y ∈ x, y.Serving := by
  cases sleep_step ha with
  | find h => exact Recheck.serving hi hp h _ rfl
  | retract =>
    rintro y ⟨⟩
    exact hs
  | wake => rintro y ⟨⟩
  | _ => trivial

theorem Search.serving {s : Search (Ring.Pop (Item ι α)) ι α}
    {a : Move (Rings ι α) (Search (Ring.Pop (Item ι α)) ι α) (Finding ι α)} (hs : s.Serving)
    (ha : a ∈ s.moves i p) : a.read Search.Serving Finding.Serving := by
  cases Search.step ha with
  | told h => exact absurd (phase?_eq p i hp hi) h
  | sleep h => exact sleep_serving hi hp hs h
  | _ => trivial

end Serving

def Callee.view : Callee ι α → View (Item ι α)
  | .run t => .hold t false
  | .submit _ => .away

def Turn.view {X : Type} (f : X → View (Item ι α)) : Turn ι α X → View (Item ι α)
  | .stay x => f x
  | .call _ c => c.view

def Loop.view (i n : Nat) : Loop (Ring.Pop (Item ι α)) ι α → View (Item ι α)
  | .search s => s.view i n
  | _ => .away

def Loop.Serving : Loop (Ring.Pop (Item ι α)) ι α → Prop
  | .search s => s.Serving
  | .stop => False
  | _ => True

def Turn.Meets {X : Type} (f : X → Prop) (g : X → Callee ι α → Prop) : Turn ι α X → Prop
  | .stay x => f x
  | .call x c => g x c

def Loop.Starts (l : Loop (Ring.Pop (Item ι α)) ι α) : Callee ι α → Prop
  | .run _ => l = .working
  | .submit _ => False

theorem Loop.effect {l : Loop (Ring.Pop (Item ι α)) ι α}
    {a : TurnMove (Ring (Item ι α)) ι α (Loop (Ring.Pop (Item ι α)) ι α)}
    (hn : p.size = n) (hi : i < n) (hl : l ≠ .stop) (ha : a ∈ l.moves i p) :
    Effect n (core p) (l.view i n) .none (core a.state)
      (a.read (Turn.view (Loop.view i n)) fun _ => .away) ∧
      a.read (Turn.Meets (fun _ => True) Loop.Starts) fun _ => False := by
  cases Loop.step ha with
  | search h | told h => exact ⟨Search.effect hn hi h, trivial⟩
  | found h => exact ⟨Search.effect hn hi h, rfl⟩
  | countPanic | countRun =>
    refine ⟨?_, trivial⟩
    rw [Move.state, core_bump]
    exact .still .away
  | reportPanic | reportAbort | abort => exact ⟨.still .away, trivial⟩
  | stop => exact absurd rfl hl

theorem Loop.serving {l : Loop (Ring.Pop (Item ι α)) ι α}
    {a : TurnMove (Ring (Item ι α)) ι α (Loop (Ring.Pop (Item ι α)) ι α)} (hi : i < p.size)
    (hp : ∀ a ∈ (core p).phases, a = .running) (hl : l.Serving) (ha : a ∈ l.moves i p) :
    a.read (Turn.Meets Loop.Serving fun _ _ => True) fun _ => True := by
  cases Loop.step ha with
  | search h => exact Search.serving hi hp hl h
  | told h => exact (Search.serving hi hp hl h).elim
  | _ => trivial

end Worker

section Client

variable {p : Rings ι α} {n : Nat}

def Run.view (t : Item ι α) : Run ι α → View (Item ι α)
  | .begin => .hold t false
  | _ => .away

def Run.deed (t : Item ι α) : Run ι α → Deed (Item ι α)
  | .begin => .begun t
  | _ => .none

def Run.Starts (r : Run ι α) : Callee ι α → Prop
  | .run _ => False
  | .submit _ => ∃ left, r = .submitting left

theorem Run.afterBegin_view (place : Place) (t : Item ι α) :
    (Run.afterBegin place t).view t = .away := by
  unfold Run.afterBegin
  split <;> rfl

theorem Run.effect {place : Place} {t : Item ι α} {r : Run ι α}
    {a : TurnMove (Ring (Item ι α)) ι α (Run ι α)} (ha : a ∈ r.moves place t p) :
    Effect n (core p) (r.view t) (r.deed t) (core a.state)
      (a.read (Turn.view (Run.view t)) fun _ => .away) ∧
      a.read (Turn.Meets (· ≠ .begin) Run.Starts) fun _ => True := by
  cases Run.step ha with
  | hold h =>
    refine ⟨?_, by rintro ⟨⟩⟩
    rw [Move.state, core_note, core_setHeld]
    exact .still (.begin t)
  | begin h =>
    have hv := Run.afterBegin_view place t
    refine ⟨?_, fun h => ?_⟩
    · rw [Move.state, core_note, Move.read, Turn.view, hv]
      exact .still (.begin t)
    · rw [h] at hv
      cases hv
  | spawn => exact ⟨.still .away, _, rfl⟩
  | leave => exact ⟨.still .away, trivial⟩
  | _ => exact ⟨.still .away, by rintro ⟨⟩⟩

def Push.view (n c : Nat) (single : Bool) : Push (Ring.Push (Item ι α)) ι α → View (Item ι α)
  | .aim t => .aim t c single
  | .offer t start o e => .push t ((start + o) % n) e c single
  | .record _ => .placed (c + 1)

def Push.outcome (c : Nat) (single : Bool) : Except (Item ι α) Nat → View (Item ι α)
  | .ok _ => if single then .look 1 else .cut (c + 1)
  | .error t => if single then .hold t false else .look c

def Push.deed (single : Bool) : Push (Ring.Push (Item ι α)) ι α →
    Move (Rings ι α) (Push (Ring.Push (Item ι α)) ι α) (Except (Item ι α) Nat) → Deed (Item ι α)
  | .offer t _ _ _, .go _ (.record _) => if single then .none else .submitted t
  | _, _ => .none

theorem Push.deed_single (s : Push (Ring.Push (Item ι α)) ι α)
    (a : Move (Rings ι α) (Push (Ring.Push (Item ι α)) ι α) (Except (Item ι α) Nat)) :
    s.deed true a = .none := by
  unfold Push.deed
  split <;> simp

theorem Push.effect (c : Nat) (single : Bool) {s : Push (Ring.Push (Item ι α)) ι α}
    {a : Move (Rings ι α) (Push (Ring.Push (Item ι α)) ι α) (Except (Item ι α) Nat)}
    (hn : p.size = n) (hc : single → c = 0) (ha : a ∈ s.moves p) :
    Effect n (core p) (s.view n c single) (s.deed single a) (core a.state)
      (a.read (Push.view n c single) (Push.outcome c single)) := by
  subst hn
  cases Push.step ha with
  | aim => exact .still (.offer _ _ c single)
  | offer hr h =>
    rw [Move.state, core_setQueue]
    exact .pushing hr h
  | place hr h =>
    rw [Move.state, core_note, core_setQueue]
    exact .placed hr h
  | next hr h _ =>
    rw [Move.state, core_setQueue]
    exact .refused hr h
  | refuse hr h _ =>
    rw [Move.state, core_setQueue]
    cases single with
    | false => exact .full hr h
    | true =>
      obtain rfl := hc rfl
      exact .inline hr h
  | record =>
    cases single with
    | false => exact .still (.next (c + 1))
    | true =>
      obtain rfl := hc rfl
      exact .still .told

def notifyView : Gate.Notify → View (Item ι α)
  | .look k => .look k
  | .post _ (.add k) => .adding k
  | .post _ (.release k) => .owed k

theorem notify_effect {k : Gate.Notify} {b : Move Gate Gate.Notify Nat} (hb : k.Taken p.gate b) :
    Effect n (core p) (notifyView k) .none ((core p).setGate b.state)
      (b.read notifyView fun _ => .away) := by
  cases hb with
  | none hz => exact .lookNone hz
  | some hs => exact .lookSome hs
  | owe h => exact .owe h
  | @post m q s h =>
    cases q with
    | add k => exact .add h
    | release k => exact .release h

def Wake.view : Wake → View (Item ι α)
  | .notify k => notifyView k
  | .count _ => .away

theorem Wake.effect {w : Wake} {a : Move (Rings ι α) Wake Unit} (ha : a ∈ w.moves p) :
    Effect n (core p) w.view .none (core a.state) (a.read Wake.view fun _ => .away) := by
  cases Wake.step ha with
  | notify h | notified h => exact notify_effect h
  | count => exact .still .away

theorem Wake.eq_of_done {w : Wake} {p' : Rings ι α} (ha : .done p' () ∈ w.moves p) :
    ∃ posted, w = .count posted ∧ core p' = core p := by
  cases Wake.step ha with
  | @count posted => exact ⟨posted, rfl, rfl⟩

def Submit.view (n : Nat) : Submit (Ring.Push (Item ι α)) ι α → View (Item ι α)
  | .push s _ => s.view n 0 true
  | .wake w _ => w.view
  | .cut _ _ pushed => .cut pushed
  | .pushChunk _ _ pushed s => s.view n pushed false
  | .wakeAll _ _ w => w.view
  | _ => .away

/-- A task counts as submitted once it has been accepted, a chunk of a range once it is queued and
the rest of a range once it is about to run. -/
def Submit.deed : Submit (Ring.Push (Item ι α)) ι α →
    TurnMove (Ring (Item ι α)) ι α (Submit (Ring.Push (Item ι α)) ι α) → Deed (Item ι α)
  | .begin _, .go _ (.stay (.push (.aim t) _)) => .submitted t
  | .pushChunk _ _ _ (.offer t _ _ _), .go _ (.stay (.pushChunk _ _ _ (.record _))) =>
    .submitted t
  | .wakeAll _ _ _, .go _ (.call _ (.run t)) => .submitted t
  | _, _ => .none

def Submit.Starts (s : Submit (Ring.Push (Item ι α)) ι α) : Callee ι α → Prop
  | .run _ => ∃ handle?, s = .inline handle?
  | .submit _ => False

variable [BEq ι]

theorem Submit.effect {s : Submit (Ring.Push (Item ι α)) ι α}
    {a : TurnMove (Ring (Item ι α)) ι α (Submit (Ring.Push (Item ι α)) ι α)} (hn : p.size = n)
    (ha : a ∈ s.moves p) :
    Effect n (core p) (s.view n) (s.deed a) (core a.state)
      (a.read (Turn.view (Submit.view n)) fun _ => .away) ∧
      a.read (Turn.Meets (fun _ => True) Submit.Starts) fun _ => True := by
  cases Submit.step ha with
  | answer | task _ => exact ⟨.still (.accept _), trivial⟩
  | range _ => exact ⟨.still .cut, trivial⟩
  | empty _ | keep | leave => exact ⟨.still .away, trivial⟩
  | @push q s s' handle? h =>
    have he := Push.effect 0 true hn (fun _ => rfl) h
    rw [Push.deed_single] at he
    exact ⟨he, trivial⟩
  | @pushed q s handle? j h =>
    have he := Push.effect 0 true hn (fun _ => rfl) h
    rw [Push.deed_single] at he
    exact ⟨he, trivial⟩
  | @refused q s handle? t h =>
    have he := Push.effect 0 true hn (fun _ => rfl) h
    rw [Push.deed_single] at he
    exact ⟨he, handle?, rfl⟩
  | wake h => exact ⟨Wake.effect h, trivial⟩
  | @woken q w handle? h =>
    have he := Wake.effect (n := n) h
    cases handle? <;> exact ⟨he, trivial⟩
  | cut _ => exact ⟨.still (.aim _ _), trivial⟩
  | whole _ => exact ⟨.still (.tell _), trivial⟩
  | @pushChunk q r start pushed s s' h =>
    refine ⟨?_, trivial⟩
    have he := Push.effect pushed false hn (by simp) h
    cases s <;> cases s' <;> exact he
  | @chunkPushed q r start pushed j s h =>
    refine ⟨?_, trivial⟩
    have he := Push.effect pushed false hn (by simp) h
    cases s <;> exact he
  | @chunkRefused q r start pushed s t h =>
    refine ⟨?_, trivial⟩
    have he := Push.effect pushed false hn (by simp) h
    cases s <;> exact he
  | wakeAll h => exact ⟨Wake.effect h, trivial⟩
  | rest h _ =>
    obtain ⟨posted, rfl, hcore⟩ := Wake.eq_of_done h
    rw [Move.state, hcore]
    exact ⟨.still (.rest _), none, rfl⟩
  | finish h _ =>
    obtain ⟨posted, rfl, hcore⟩ := Wake.eq_of_done h
    rw [Move.state, hcore]
    exact ⟨.still .away, trivial⟩

end Client

section Closing

variable {p : Rings ι α} {n : Nat}

def Shutdown.view (n : Nat) : Shutdown (Ring.Pop (Item ι α)) ι α → View (Item ι α)
  | .notify _ k => notifyView k
  | .drain i d _ => if i < n then .pop i d none else .away
  | .cancel _ t _ _ _ => .hold t false
  | .drop _ t _ => .hold t false
  | _ => .away

def Shutdown.deed : Shutdown (Ring.Pop (Item ι α)) ι α → Deed (Item ι α)
  | .drop _ t _ => .dropped t
  | _ => .none

theorem Shutdown.view_of_lt {i : Nat} (hi : i < n) (d : Ring.Pop (Item ι α)) (k : Nat) :
    (Shutdown.drain i d k : Shutdown (Ring.Pop (Item ι α)) ι α).view n = .pop i d none := if_pos hi

theorem Shutdown.view_drain (i k : Nat) :
    ((Shutdown.drain i .look k : Shutdown (Ring.Pop (Item ι α)) ι α).view n).Fresh := by
  rw [Shutdown.view]
  split
  · exact .inr ⟨i, rfl⟩
  · exact .inl rfl

theorem View.Fresh.still {β : Type} {v : View β} (h : v.Fresh) : Still n .away .none v := by
  rcases h with rfl | ⟨w, rfl⟩
  · exact .away
  · exact .pop w

theorem Shutdown.view_discard (unwinding : Bool) (i : Nat) (t : Item ι α) (k : Nat) :
    (Shutdown.discard unwinding i t k : Shutdown (Ring.Pop (Item ι α)) ι α).view n =
      .hold t false := by
  unfold Shutdown.discard
  split <;> rfl

theorem Shutdown.shift {unwinding : Bool} {s : Shutdown (Ring.Pop (Item ι α)) ι α}
    {a : TurnMove (Ring (Item ι α)) ι α (Shutdown (Ring.Pop (Item ι α)) ι α)} (hn : p.size = n)
    (hs : ∀ i, s ≠ .mark i) (ha : a ∈ s.moves unwinding p) :
    Shift n (core p) (s.view n) s.deed (core a.state)
      (a.read (Turn.view (Shutdown.view n)) fun _ => .away) ∧
      a.read (Turn.Meets (fun _ => True) fun _ _ => False) fun _ => True := by
  subst hn
  cases Shutdown.step ha with
  | tell _ _ | skip _ _ | marked _ => exact absurd rfl (hs _)
  | joined => exact ⟨.serve (.still (Shutdown.view_drain 0 0).still), trivial⟩
  | call => exact ⟨.call _, trivial⟩
  | notify h | notified h =>
    have he : Effect p.size (core p) _ _ _ _ := notify_effect h
    exact ⟨.serve he, trivial⟩
  | look hi hr h =>
    rw [Move.state, core_setQueue, Move.read, Turn.view, Shutdown.view_of_lt hi,
      Shutdown.view_of_lt hi]
    exact ⟨.serve (.popping hr h), trivial⟩
  | @miss i k r r' d hi hr h =>
    rw [Move.state, core_setQueue, Shutdown.view_of_lt hi]
    exact ⟨.next hr h (Shutdown.view_drain (i + 1) k), trivial⟩
  | find hi hr h =>
    rw [Move.state, core_setQueue, Move.read, Turn.view, Shutdown.view_of_lt hi,
      Shutdown.view_discard]
    exact ⟨.serve (.hit hr h), trivial⟩
  | drained hi =>
    rw [Shutdown.view, if_neg (Nat.not_lt.2 hi)]
    exact ⟨.serve (.still .away), trivial⟩
  | cancel _ _ | cancelled _ _ => exact ⟨.serve (.still (.hold _ false)), trivial⟩
  | @drop i k t => exact ⟨.discard t (Shutdown.view_drain i (k + 1)), trivial⟩
  | _ => exact ⟨.serve (.still .away), trivial⟩

end Closing

end Pool

end WorkStealing
