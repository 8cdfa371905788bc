import WorkStealing.Proofs.Pool.Frame
import WorkStealing.Proofs.Pool.Once

namespace WorkStealing.Pool

variable {ι α : Type}

def frees : RingPoint ι α → List (Job ι α)
  | .busy _ (.run t (.leave _)) _ => t.leave
  | .busy _ (.shutdown _ (.drop _ t _)) _ => t.drop
  | _ => []

def freedBy (log : Log ι α) : List (Job ι α) := log.flatMap fun e => frees e.point

section Steps

variable {p : Rings ι α} {i : Nat} {place : Place} {below : List (RingActivity ι α)}

theorem Loop.freed {l : Loop (Ring.Pop (Item ι α)) ι α}
    {a : TurnMove (Ring (Item ι α)) ι α (Loop (Ring.Pop (Item ι α)) ι α)}
    (ha : a ∈ l.moves i p) : freed a.state.history = freed p.history := by
  cases Loop.step ha with
  | search h | found h | told h => exact (Search.frame (T := fun _ => True) h).freed
  | _ => rfl

theorem Run.freed {t : Item ι α} {r : Run ι α} {a : TurnMove (Ring (Item ι α)) ι α (Run ι α)}
    (ha : a ∈ r.moves place t p) : freed a.state.history =
      (frees (.busy place (.run t r) below : RingPoint ι α)).map Job.label ++ freed p.history := by
  cases Run.step ha with
  | leave =>
    rw [frees, Task.leave_eq]
    rfl
  | _ => rfl

theorem Submit.freed [BEq ι] {s : Submit (Ring.Push (Item ι α)) ι α}
    {a : TurnMove (Ring (Item ι α)) ι α (Submit (Ring.Push (Item ι α)) ι α)}
    (ha : a ∈ s.moves p) : freed a.state.history = freed p.history := by
  cases Submit.step ha with
  | push h | pushed h | refused h | pushChunk h | chunkPushed h | chunkRefused h =>
    exact (Push.frame (T := fun _ => True) (fun _ _ => trivial) h).freed
  | wake h | woken h | wakeAll h | rest h _ | finish h _ =>
    exact (Wake.frame (T := fun _ => True) h).freed
  | _ => rfl

theorem Shutdown.freed {unwinding : Bool} {s : Shutdown (Ring.Pop (Item ι α)) ι α}
    {a : TurnMove (Ring (Item ι α)) ι α (Shutdown (Ring.Pop (Item ι α)) ι α)}
    (ha : a ∈ s.moves unwinding p) : freed a.state.history =
      (frees (.busy place (.shutdown unwinding s) below : RingPoint ι α)).map Job.label ++
        freed p.history := by
  cases Shutdown.step ha with
  | drop =>
    rw [frees, Task.drop_eq]
    rfl
  | _ => rfl

theorem Point.freed [BEq ι] {pt : RingPoint ι α} {a : RingMove ι α} (ha : a ∈ pt.moves p) :
    freed a.state.history = (frees pt).map Job.label ++ freed p.history := by
  cases Point.taken ha with
  | loop d h =>
    rw [state_land]
    exact Loop.freed h
  | run d h =>
    rw [state_land]
    exact Run.freed h
  | submit d h =>
    rw [state_land]
    exact Submit.freed h
  | shutdown d h =>
    rw [state_land]
    exact Shutdown.freed h
  | await d _ _ => cases d <;> rfl

theorem frees_eq (pt : RingPoint ι α) (a : RingMove ι α) :
    frees pt = ((ended? pt).toList ++ (deed pt a).dropped?.toList).map Task.closure := by
  rcases pt with ⟨place, top, below⟩ | ⟨slot, w⟩
  · cases top with
    | run t r =>
      cases r with
      | leave o => exact Task.leave_eq t
      | _ => rfl
    | submit s =>
      rw [dropped?_submit]
      rfl
    | shutdown unwinding s =>
      cases s with
      | drop i t k => exact Task.drop_eq t
      | _ => rfl
    | loop i l => rfl
  · rfl

end Steps

section Runs

variable {p : Rings ι α} {log : Log ι α} {k : RingCrew ι α}
  {allowed : RingCrew ι α → Call ι α → Prop}

theorem run_freed [BEq ι] (h : Crew.Run calls allowed ⟨p, []⟩ log k) :
    freed k.state.history = (freedBy log).map Job.label ++ freed p.history := by
  induction h with
  | refl => rfl
  | start _ _ _ ih => exact ih
  | move _ ha ih =>
    rw [Move.fst_land, Point.freed ha, ih, freedBy, freedBy, List.flatMap_cons, List.map_append,
      List.append_assoc]

theorem freed_new {c : Config} {cores : Nat} (hp : Pool.new c cores = .ok p) :
    freed p.history = [] := by
  simp only [Pool.new] at hp
  split at hp
  · cases hp
  · split at hp
    · cases hp
    · obtain rfl := Except.ok.inj hp
      rfl

theorem run_freed_new [BEq ι] {c : Config} {cores : Nat} (hp : Pool.new c cores = .ok p)
    (h : Crew.Run calls allowed ⟨p, []⟩ log k) :
    freed k.state.history = (freedBy log).map Job.label := by
  rw [run_freed h, freed_new hp, List.append_nil]

theorem freedBy_perm (log : Log ι α) :
    (freedBy log).Perm ((ended log ++ dropped log).map Task.closure) := by
  induction log with
  | nil => exact .nil
  | cons e log ih =>
    have hended : ended (e :: log) = (ended? e.point).toList ++ ended log := by
      cases he : ended? e.point <;> simp [ended, he]
    rw [freedBy, List.flatMap_cons, frees_eq e.point e.move, hended, dropped_cons]
    refine (ih.append_left _).trans ?_
    rw [← List.map_append, List.append_assoc, List.append_assoc]
    refine .map _ (.append_left _ ?_)
    rw [← List.append_assoc, ← List.append_assoc]
    exact .append_right _ List.perm_append_comm

end Runs

end WorkStealing.Pool
