import WorkStealing.Proofs.Pool.Erase

namespace WorkStealing.Pool

variable {ι α : Type}

section Points

variable {E D : Type}

/-- What can wait below a task that runs (`true`), or below a submission. -/
inductive Stacked (n : Nat) : Call ι α → Place → Bool → List (Activity E D ι α) → Prop where
  | worker {i : Nat} (h : i < n) : Stacked n (.work i) (.worker i) true [.loop i .working]
  | caller (o : Order ι α) : Stacked n (.submit o) .caller false []
  | run {c : Call ι α} {place : Place} {t : Item ι α} {left : List (Order ι α)}
      {below : List (Activity E D ι α)} (h : Stacked n c place true below) :
      Stacked n c place false (.run t (.submitting left) :: below)
  | inline {c : Call ι α} {place : Place} {handle? : Option (ι × Nat)}
      {below : List (Activity E D ι α)} (h : Stacked n c place false below) :
      Stacked n c place true (.submit (.inline handle?) :: below)

variable {Q : Type} [Queue Q (Item ι α) E D] [BEq ι]

inductive Taken (p : Pool Q ι α) :
    Point E D ι α → Move (Pool Q ι α) (Point E D ι α) (Reply α) → Prop where
  | loop {place : Place} {i : Nat} {l : Loop D ι α} {below : List (Activity E D ι α)}
      (d : TurnMove Q ι α (Loop D ι α)) (h : d ∈ l.moves i p) :
      Taken p (.busy place (.loop i l) below) (Point.land place below (d.map (.loop i)))
  | run {place : Place} {t : Item ι α} {r : Run ι α} {below : List (Activity E D ι α)}
      (d : TurnMove Q ι α (Run ι α)) (h : d ∈ r.moves place t p) :
      Taken p (.busy place (.run t r) below) (Point.land place below (d.map (.run t)))
  | submit {place : Place} {s : Submit E ι α} {below : List (Activity E D ι α)}
      (d : TurnMove Q ι α (Submit E ι α)) (h : d ∈ s.moves p) :
      Taken p (.busy place (.submit s) below) (Point.land place below (d.map .submit))
  | shutdown {place : Place} {unwinding : Bool} {s : Shutdown D ι α}
      {below : List (Activity E D ι α)} (d : TurnMove Q ι α (Shutdown D ι α))
      (h : d ∈ s.moves unwinding p) :
      Taken p (.busy place (.shutdown unwinding s) below)
        (Point.land place below (d.map (.shutdown unwinding)))
  | await {slot : Nat} {w : ResultSlot.Await} {z : ResultSlot α}
      (d : Move (ResultSlot α) ResultSlot.Await (Except JoinError α))
      (hz : p.slots[slot]? = some z) (h : d ∈ w.moves z) :
      Taken p (.await slot w) (d.embed (p.setSlot slot) (.await slot)
        fun z r => .done (p.setSlot slot z) (.joined r))

theorem Point.taken {p : Pool Q ι α} {pt : Point E D ι α}
    {a : Move (Pool Q ι α) (Point E D ι α) (Reply α)} (ha : a ∈ pt.moves p) : Taken p pt a := by
  cases pt with
  | busy place top below =>
    simp only [Point.moves] at ha
    split at ha
    · simp at ha
    · obtain ⟨b, hb, rfl⟩ := List.mem_map.1 ha
      cases top with
      | loop i l =>
        obtain ⟨d, hd, rfl⟩ := List.mem_map.1 hb
        exact .loop d hd
      | run t r =>
        obtain ⟨d, hd, rfl⟩ := List.mem_map.1 hb
        exact .run d hd
      | submit s =>
        obtain ⟨d, hd, rfl⟩ := List.mem_map.1 hb
        exact .submit d hd
      | shutdown unwinding s =>
        obtain ⟨d, hd, rfl⟩ := List.mem_map.1 hb
        exact .shutdown d hd
  | await slot w =>
    simp only [Point.moves] at ha
    split at ha
    · simp at ha
    · split at ha
      · simp at ha
      · rename_i z hz
        obtain ⟨d, hd, rfl⟩ := List.mem_map.1 ha
        exact .await d hz hd

end Points

abbrev RingActivity (ι α : Type) := Activity (Ring.Push (Item ι α)) (Ring.Pop (Item ι α)) ι α

abbrev RingPoint (ι α : Type) := Point (Ring.Push (Item ι α)) (Ring.Pop (Item ι α)) ι α

abbrev RingMove (ι α : Type) := Move (Rings ι α) (RingPoint ι α) (Reply α)

def Activity.view (n : Nat) : RingActivity ι α → View (Item ι α)
  | .loop i l => l.view i n
  | .run t r => r.view t
  | .submit s => s.view n
  | .shutdown _ s => s.view n

def Point.view (n : Nat) : RingPoint ι α → View (Item ι α)
  | .busy _ top _ => top.view n
  | .await _ _ => .away

def Sane (n : Nat) (c : Call ι α) : RingPoint ι α → Prop
  | .busy place (.loop i l) below =>
    c = .work i ∧ place = .worker i ∧ below = [] ∧ i < n ∧ l.Serving
  | .busy place (.run _ _) below => Stacked n c place true below
  | .busy place (.submit _) below => Stacked n c place false below
  | .busy _ (.shutdown _ _) _ => False
  | .await slot _ => c = .await slot

/-- What a step does to a task. A task counts as submitted once it has been accepted, a chunk of a
range once it is queued, and the rest of a range once it is about to run. -/
def deed : RingPoint ι α → Move (Rings ι α) (RingPoint ι α) (Reply α) → Deed (Item ι α)
  | .busy _ (.run t .begin) _, _ => .begun t
  | .busy _ (.submit (.begin _)) _, .go _ (.busy _ (.submit (.push (.aim t) _)) _) => .submitted t
  | .busy _ (.submit (.pushChunk _ _ _ (.offer t _ _ _))) _,
    .go _ (.busy _ (.submit (.pushChunk _ _ _ (.record _))) _) => .submitted t
  | .busy _ (.submit (.wakeAll _ _ _)) _, .go _ (.busy _ (.run t .begin) _) => .submitted t
  | .busy _ (.shutdown _ (.drop _ t _)) _, _ => .dropped t
  | _, _ => .none

def Framed (n : Nat) (c : Call ι α) : RingPoint ι α → Prop
  | .busy place (.loop i _) below => c = .work i ∧ place = .worker i ∧ below = [] ∧ i < n
  | .busy place (.run _ _) below => Stacked n c place true below
  | .busy place (.submit _) below => Stacked n c place false below
  | .busy place (.shutdown unwinding _) below =>
    c = .shutdown unwinding ∧ place = .caller ∧ below = []
  | .await slot _ => c = .await slot

theorem Sane.framed {n : Nat} {c : Call ι α} {pt : RingPoint ι α} (h : Sane n c pt) :
    Framed n c pt := by
  rcases pt with ⟨place, top, below⟩ | ⟨slot, w⟩
  · cases top with
    | loop i l =>
      obtain ⟨h1, h2, h3, h4, -⟩ := h
      exact ⟨h1, h2, h3, h4⟩
    | shutdown unwinding s => exact h.elim
    | _ => exact h
  · exact h

inductive Mark {β : Type} (x : Core β) :
    Call ι α → RingPoint ι α → RingMove ι α → Core β → Prop where
  | stop {i : Nat} {p : Rings ι α} : Mark x (.work i) (.busy (.worker i) (.loop i .stop) [])
      (.done p (.left .returned)) (x.setPhase i .stopped)
  | tell {unwinding : Bool} {i : Nat} {p : Rings ι α} (h : x.phases[i]? = some .running) :
      Mark x (.shutdown unwinding) (.busy .caller (.shutdown unwinding (.mark i)) [])
        (.go p (.busy .caller (.shutdown unwinding (.mark (i + 1))) [])) (x.setPhase i .stopping)

section Land

variable {n : Nat} {c : Call ι α} {place : Place} {below : List (RingActivity ι α)}

theorem Stacked.resume {x : RingActivity ι α} {b : Bool} (h : Stacked n c place b (x :: below))
    (policy : PanicPolicy) (o : Outcome) : Sane n c (.busy place (x.resume policy o) below) ∧
      (x.resume policy o).view n = .away := by
  cases h with
  | worker hi =>
    cases o with
    | returned => exact ⟨⟨rfl, rfl, rfl, hi, trivial⟩, rfl⟩
    | panicked payload => cases policy <;> exact ⟨⟨rfl, rfl, rfl, hi, trivial⟩, rfl⟩
  | run h => cases o <;> exact ⟨h, rfl⟩
  | inline h =>
    rename_i handle?
    cases o <;> cases handle? <;> exact ⟨h, rfl⟩

theorem Stacked.call {b : Bool} (h : Stacked n c place b below) :
    (∃ i, c = .work i) ∨ ∃ o, c = .submit o := by
  induction h with
  | worker hi => exact .inl ⟨_, rfl⟩
  | caller o => exact .inr ⟨o, rfl⟩
  | run _ ih => exact ih
  | inline _ ih => exact ih

theorem deed_run (t : Item ι α) (r : Run ι α) (a : Move (Rings ι α) (RingPoint ι α) (Reply α)) :
    deed (.busy place (.run t r) below) a = r.deed t := by
  cases r <;> rfl

theorem deed_submit {s : Submit (Ring.Push (Item ι α)) ι α}
    (a : TurnMove (Ring (Item ι α)) ι α (Submit (Ring.Push (Item ι α)) ι α))
    (h : Stacked n c place false below) :
    deed (.busy place (.submit s) below) (Point.land place below (a.map .submit)) = s.deed a := by
  rcases a with ⟨p, x | ⟨x, k⟩⟩ | ⟨p, o⟩
  · cases s with
    | begin _ =>
      cases x with
      | push s _ => cases s <;> rfl
      | _ => rfl
    | pushChunk _ _ _ s =>
      cases s with
      | offer _ _ _ _ =>
        cases x with
        | pushChunk _ _ _ s => cases s <;> rfl
        | _ => rfl
      | _ => rfl
    | _ => rfl
  · cases s with
    | pushChunk _ _ _ s => cases s <;> cases k <;> rfl
    | _ => cases k <;> rfl
  · cases h with
    | caller o =>
      cases s with
      | pushChunk _ _ _ s => cases s <;> rfl
      | _ => rfl
    | run h =>
      cases s with
      | pushChunk _ _ _ s => cases s <;> cases o <;> rfl
      | _ => cases o <;> rfl

end Land

section Effect

variable {n : Nat} {c : Call ι α} {place : Place} {below : List (RingActivity ι α)}
  {p : Rings ι α}

theorem land_done (p' : Rings ι α) (o : Outcome) {b : Bool} (h : Stacked n c place b below)
    (hc : b = true → below ≠ []) :
    let a : Move (Rings ι α) (RingPoint ι α) (Reply α) := Point.land place below (.done p' o)
    a.state = p' ∧ a.read (Point.view n) (fun _ => .away) = .away ∧
      a.read (Sane n c) fun _ => ∀ i, c ≠ .work i := by
  cases below with
  | nil =>
    cases h with
    | caller o => exact ⟨rfl, rfl, by rintro i ⟨⟩⟩
  | cons x below =>
    obtain ⟨hs, hv⟩ := h.resume p'.panicPolicy o
    exact ⟨rfl, hv, hs⟩

theorem Loop.land {i : Nat} {l : Loop (Ring.Pop (Item ι α)) ι α}
    {a : TurnMove (Ring (Item ι α)) ι α (Loop (Ring.Pop (Item ι α)) ι α)} (hn : p.size = n)
    (hp : ∀ a ∈ (core p).phases, a = .running) (hs : Sane n c (.busy place (.loop i l) below))
    (ha : a ∈ l.moves i p) :
    let a' : Move (Rings ι α) (RingPoint ι α) (Reply α) := Point.land place below (a.map (.loop i))
    Effect n (core p) (l.view i n) .none (core a'.state) (a'.read (Point.view n) fun _ => .away) ∧
      a'.read (Sane n c) fun _ => ∀ i, c ≠ .work i := by
  obtain ⟨rfl, rfl, rfl, hi, hl⟩ := hs
  obtain ⟨he, hf⟩ := Loop.effect hn hi (by rintro rfl; exact hl) ha
  have hs := Loop.serving (hn ▸ hi) hp hl ha
  rcases a with ⟨p', l' | ⟨x, k⟩⟩ | ⟨p', o⟩
  · exact ⟨he, rfl, rfl, rfl, hi, hs⟩
  · cases k with
    | run t =>
      obtain rfl : x = .working := hf
      exact ⟨he, .worker hi⟩
    | submit o => exact hf.elim
  · exact hf.elim

theorem Run.land {t : Item ι α} {r : Run ι α} {a : TurnMove (Ring (Item ι α)) ι α (Run ι α)}
    (hs : Stacked n c place true below) (ha : a ∈ r.moves place t p) :
    let a' : Move (Rings ι α) (RingPoint ι α) (Reply α) := Point.land place below (a.map (.run t))
    Effect n (core p) (r.view t) (r.deed t) (core a'.state)
      (a'.read (Point.view n) fun _ => .away) ∧ a'.read (Sane n c) fun _ => ∀ i, c ≠ .work i := by
  obtain ⟨he, hf⟩ := Run.effect (n := n) ha
  rcases a with ⟨p', r' | ⟨x, k⟩⟩ | ⟨p', o⟩
  · exact ⟨he, hs⟩
  · cases k with
    | run u => exact hf.elim
    | submit o =>
      obtain ⟨left, rfl⟩ := hf
      exact ⟨he, .run hs⟩
  · obtain ⟨h1, h2, h3⟩ := land_done p' o hs (by rintro - rfl; cases hs)
    refine ⟨?_, h3⟩
    rw [TurnMove.map, Move.embed, h1, h2]
    exact he

def Shifts (n : Nat) (p : Rings ι α) (c : Call ι α) (pt : RingPoint ι α) (a : RingMove ι α) : Prop :=
  (Shift n (core p) (pt.view n) (deed pt a) (core a.state) (a.read (Point.view n) fun _ => .away) ∨
    Mark (core p) c pt a (core a.state)) ∧ a.read (Framed n c) fun _ => True

theorem Loop.shift {i : Nat} {l : Loop (Ring.Pop (Item ι α)) ι α}
    {a : TurnMove (Ring (Item ι α)) ι α (Loop (Ring.Pop (Item ι α)) ι α)} (hn : p.size = n)
    (hs : Framed n c (.busy place (.loop i l) below)) (ha : a ∈ l.moves i p) :
    Shifts n p c (.busy place (.loop i l) below) (Point.land place below (a.map (.loop i))) := by
  obtain ⟨rfl, rfl, rfl, hi⟩ := hs
  by_cases hl : l = .stop
  · subst hl
    cases Loop.step ha with
    | stop =>
      refine ⟨.inr ?_, trivial⟩
      change Mark _ _ _ _ (core (p.setPhase i .stopped))
      rw [core_setPhase]
      exact .stop
  · obtain ⟨he, hf⟩ := Loop.effect hn hi hl ha
    rcases a with ⟨p', l' | ⟨x, k⟩⟩ | ⟨p', o⟩
    · exact ⟨.inl (.serve he), rfl, rfl, rfl, hi⟩
    · cases k with
      | run t =>
        obtain rfl : x = .working := hf
        exact ⟨.inl (.serve he), .worker hi⟩
      | submit o => exact hf.elim
    · exact hf.elim

theorem Shutdown.land {unwinding : Bool} {s : Shutdown (Ring.Pop (Item ι α)) ι α}
    {a : TurnMove (Ring (Item ι α)) ι α (Shutdown (Ring.Pop (Item ι α)) ι α)} (hn : p.size = n)
    (hs : Framed n c (.busy place (.shutdown unwinding s) below)) (ha : a ∈ s.moves unwinding p) :
    Shifts n p c (.busy place (.shutdown unwinding s) below)
      (Point.land place below (a.map (.shutdown unwinding))) := by
  obtain ⟨rfl, rfl, rfl⟩ := hs
  by_cases hm : ∃ i, s = .mark i
  · obtain ⟨i, rfl⟩ := hm
    cases Shutdown.step ha with
    | tell hi hphase =>
      refine ⟨.inr ?_, rfl, rfl, rfl⟩
      change Mark _ _ _ _ (core (p.setPhase i .stopping))
      rw [core_setPhase]
      exact .tell (core_phase? p i ▸ hphase)
    | skip _ _ | marked _ => exact ⟨.inl (.serve (.still .away)), rfl, rfl, rfl⟩
  · obtain ⟨he, hf⟩ := Shutdown.shift hn (fun i h => hm ⟨i, h⟩) ha
    have hd (b : RingMove ι α) : Pool.deed (.busy .caller (.shutdown unwinding s) []) b = s.deed := by
      cases s <;> rfl
    rw [Shifts, hd]
    rcases a with ⟨p', s' | ⟨x, k⟩⟩ | ⟨p', o⟩
    · exact ⟨.inl he, rfl, rfl, rfl⟩
    · exact hf.elim
    · exact ⟨.inl he, trivial⟩

theorem framed_of_sane {a : RingMove ι α} (h : a.read (Sane n c) fun _ => ∀ i, c ≠ .work i) :
    a.read (Framed n c) fun _ => True := by
  cases a with
  | go p pt => exact Sane.framed h
  | done p r => trivial

variable [BEq ι]

theorem Submit.land {s : Submit (Ring.Push (Item ι α)) ι α}
    {a : TurnMove (Ring (Item ι α)) ι α (Submit (Ring.Push (Item ι α)) ι α)} (hn : p.size = n)
    (hs : Stacked n c place false below) (ha : a ∈ s.moves p) :
    let a' : Move (Rings ι α) (RingPoint ι α) (Reply α) := Point.land place below (a.map .submit)
    Effect n (core p) (s.view n) (s.deed a) (core a'.state)
      (a'.read (Point.view n) fun _ => .away) ∧ a'.read (Sane n c) fun _ => ∀ i, c ≠ .work i := by
  obtain ⟨he, hf⟩ := Submit.effect hn ha
  rcases a with ⟨p', s' | ⟨x, k⟩⟩ | ⟨p', o⟩
  · exact ⟨he, hs⟩
  · cases k with
    | run t =>
      obtain ⟨handle?, rfl⟩ := hf
      exact ⟨he, .inline hs⟩
    | submit o => exact hf.elim
  · obtain ⟨h1, h2, h3⟩ := land_done p' o hs (by simp)
    refine ⟨?_, h3⟩
    rw [TurnMove.map, Move.embed, h1, h2]
    exact he

theorem Point.effect {pt : RingPoint ι α} {a : Move (Rings ι α) (RingPoint ι α) (Reply α)}
    (hn : p.size = n) (hp : ∀ a ∈ (core p).phases, a = .running) (hs : Sane n c pt)
    (ha : a ∈ pt.moves p) :
    Effect n (core p) (pt.view n) (deed pt a) (core a.state)
      (a.read (Point.view n) fun _ => .away) ∧ a.read (Sane n c) fun _ => ∀ i, c ≠ .work i := by
  cases Point.taken ha with
  | loop d hd => exact Loop.land hn hp hs hd
  | run d hd =>
    rw [deed_run]
    exact Run.land hs hd
  | submit d hd =>
    rw [deed_submit d hs]
    exact Submit.land hn hs hd
  | shutdown d hd => exact hs.elim
  | await d hz hd =>
    cases d with
    | go z w => exact ⟨.still .away, hs⟩
    | done z r => exact ⟨.still .away, by rintro i rfl; cases hs⟩

theorem Point.shifts {pt : RingPoint ι α} {a : RingMove ι α} (hn : p.size = n)
    (hs : Framed n c pt) (ha : a ∈ pt.moves p) : Shifts n p c pt a := by
  cases Point.taken ha with
  | loop d hd => exact Loop.shift hn hs hd
  | run d hd =>
    obtain ⟨he, hf⟩ := Run.land hs hd
    rw [Shifts, deed_run]
    exact ⟨.inl (.serve he), framed_of_sane hf⟩
  | submit d hd =>
    obtain ⟨he, hf⟩ := Submit.land hn hs hd
    rw [Shifts, deed_submit d hs]
    exact ⟨.inl (.serve he), framed_of_sane hf⟩
  | shutdown d hd => exact Shutdown.land hn hs hd
  | await d hz hd =>
    cases d with
    | go z w => exact ⟨.inl (.serve (.still .away)), hs⟩
    | done z r => exact ⟨.inl (.serve (.still .away)), trivial⟩

end Effect

end WorkStealing.Pool
