import WorkStealing.Proofs.Pool.Conserve
import WorkStealing.Proofs.Pool.Once

namespace WorkStealing

theorem Ring.Push.Knows.brings {β : Type} {cap : Nat} {g : Ghost β} {t : β} {e : Ring.Push β}
    (h : e.Knows cap g t) : e.Brings t := by
  cases e with
  | look v => exact h
  | publish pos => trivial
  | _ => exact h.1

namespace Pool

variable {ι α : Type} (f : Item ι α → Bool)

section Due

def queued? : RingPoint ι α → RingMove ι α → Option (Item ι α)
  | .busy _ (.submit (.push (.offer t _ _ _) _)) _,
    .go _ (.busy _ (.submit (.push (.record _) _)) _) => some t
  | .busy _ (.submit (.pushChunk _ _ _ (.offer t _ _ _))) _,
    .go _ (.busy _ (.submit (.pushChunk _ _ _ (.record _))) _) => some t
  | _, _ => none

def executed? : RingPoint ι α → Option (Item ι α)
  | .busy _ (.run t .begin) [.loop _ _] => some t
  | _ => none

def queued (log : Log ι α) : List (Item ι α) := log.filterMap fun e => queued? e.point e.move

def executed (log : Log ι α) : List (Item ι α) := log.filterMap fun e => executed? e.point

def Push.due : Push (Ring.Push (Item ι α)) ι α → Nat
  | .aim t => (f t).toNat
  | .offer t _ _ _ => (f t).toNat
  | .record _ => 0

def Submit.due : Submit (Ring.Push (Item ι α)) ι α → Nat
  | .push s _ => s.due f
  | _ => 0

def Point.due : RingPoint ι α → Nat
  | .busy _ (.submit s) _ => s.due f
  | .busy _ (.run t .begin) (.submit _ :: _) => (f t).toNat
  | _ => 0

variable {f}

variable {n : Nat} {c : Call ι α} {place : Place} {below : List (RingActivity ι α)}
  {p : Rings ι α}

theorem due_of_ne {t : Item ι α} {r : Run ι α} (h : r ≠ .begin) :
    (Point.busy place (.run t r) below : RingPoint ι α).due f = 0 := by
  cases r <;> first | rfl | exact absurd rfl h

theorem Framed.byWorker {pt : RingPoint ι α} {t : Item ι α} (h : Framed n c pt)
    (ht : executed? pt = some t) : ByWorker n c pt t := by
  unfold executed? at ht
  split at ht
  · cases ht
    have h : Stacked n c _ true _ := h
    cases h with
    | worker hi => exact ⟨_, hi, rfl, rfl⟩
  · cases ht

theorem due_resume {x : RingActivity ι α} {b : Bool} (h : Stacked n c place b (x :: below))
    (policy : PanicPolicy) (o : Outcome) :
    (Point.busy place (x.resume policy o) below).due f = 0 := by
  cases h with
  | worker hi => rfl
  | run h => cases o <;> rfl
  | inline h =>
    rename_i handle?
    cases o <;> cases handle? <;> rfl

theorem due_done {b : Bool} (h : Stacked n c place b below) (p' : Rings ι α) (o : Outcome) :
    (Point.land place below (.done p' o) : RingMove ι α).read (Point.due f) (fun _ => 0) = 0 := by
  cases below with
  | nil => rfl
  | cons x below => exact due_resume h _ o

def Books (f : Item ι α → Bool) (pt : RingPoint ι α) (a : RingMove ι α) : Prop :=
  (deed pt a).submits f + (executed? pt).toList.countP f + pt.due f =
    (queued? pt a).toList.countP f + (deed pt a).begins f + a.read (Point.due f) fun _ => 0

theorem books_of_still {pt : RingPoint ι α} {a : RingMove ι α} (hd : deed pt a = .none)
    (he : executed? pt = none) (hq : queued? pt a = none)
    (hdue : pt.due f = a.read (Point.due f) fun _ => 0) : Books f pt a := by
  rw [Books, hd, he, hq, hdue]
  rfl

theorem Run.books {t : Item ι α} {r : Run ι α} {a : TurnMove (Ring (Item ι α)) ι α (Run ι α)}
    (hs : Stacked n c place true below) (ha : a ∈ r.moves place t p) :
    Books f (.busy place (.run t r) below) (Point.land place below (a.map (.run t))) := by
  have hf := (Run.effect (n := n) ha).2
  have hafter : (Point.land place below (a.map (.run t)) : RingMove ι α).read (Point.due f)
      (fun _ => 0) = 0 := by
    rcases a with ⟨p', r' | ⟨x, k⟩⟩ | ⟨p', o⟩
    · exact due_of_ne hf
    · cases k with
      | run u => exact hf.elim
      | submit o => rfl
    · exact due_done hs p' o
  rw [Books, deed_run, hafter]
  cases r with
  | begin =>
    cases hs <;> simp [Run.deed, Deed.submits, Deed.begins, executed?, queued?, Point.due]
    all_goals cases f t <;> rfl
  | _ => rfl

theorem Loop.books {i : Nat} {l : Loop (Ring.Pop (Item ι α)) ι α}
    {a : TurnMove (Ring (Item ι α)) ι α (Loop (Ring.Pop (Item ι α)) ι α)}
    (hs : Framed n c (.busy place (.loop i l) below)) :
    Books f (.busy place (.loop i l) below) (Point.land place below (a.map (.loop i))) := by
  obtain ⟨rfl, rfl, rfl, hi⟩ := hs
  refine books_of_still rfl rfl rfl ?_
  rcases a with ⟨p', l' | ⟨x, k⟩⟩ | ⟨p', o⟩
  · rfl
  · cases k <;> rfl
  · rfl

theorem Shutdown.books {unwinding : Bool} {s : Shutdown (Ring.Pop (Item ι α)) ι α}
    {a : TurnMove (Ring (Item ι α)) ι α (Shutdown (Ring.Pop (Item ι α)) ι α)}
    (hs : Framed n c (.busy place (.shutdown unwinding s) below)) :
    Books f (.busy place (.shutdown unwinding s) below)
      (Point.land place below (a.map (.shutdown unwinding))) := by
  obtain ⟨rfl, rfl, rfl⟩ := hs
  have hafter : (Point.land .caller [] (a.map (.shutdown unwinding)) : RingMove ι α).read
      (Point.due f) (fun _ => 0) = 0 := by
    rcases a with ⟨p', s' | ⟨x, k⟩⟩ | ⟨p', o⟩
    · rfl
    · cases k <;> rfl
    · rfl
  rw [Books, hafter]
  cases s <;> rfl

theorem countP_toList_some (t : Item ι α) : (some t).toList.countP f = (f t).toNat := by
  cases h : f t <;> simp [h]

variable [BEq ι]

theorem Submit.books {cap : Nat} {G : Nat → Ghost (Item ι α)}
    {s : Submit (Ring.Push (Item ι α)) ι α}
    {a : TurnMove (Ring (Item ι α)) ι α (Submit (Ring.Push (Item ι α)) ι α)}
    (hs : Stacked n c place false below) (hk : (s.view n).Knows cap G) (ha : a ∈ s.moves p) :
    Books f (.busy place (.submit s) below) (Point.land place below (a.map .submit)) := by
  rw [Books]
  cases Submit.step ha with
  | answer | task _ => exact Nat.add_comm _ _
  | push h =>
    cases Push.step h with
    | place _ _ => exact (Nat.zero_add _).trans (countP_toList_some _).symm
    | next _ he _ =>
      obtain rfl := (Ring.Push.Knows.brings hk).error he
      rfl
    | _ => rfl
  | pushed h =>
    cases Push.step h with
    | record => rfl
  | refused h =>
    cases Push.step h with
    | refuse _ he _ =>
      obtain rfl := (Ring.Push.Knows.brings hk).error he
      rfl
  | @woken q w handle? h => cases handle? <;> rfl
  | pushChunk h =>
    cases Push.step h with
    | place _ _ => exact (countP_toList_some _).symm
    | _ => rfl
  | @chunkPushed q r start pushed j s h => cases s <;> rfl
  | @chunkRefused q r start pushed s t h => cases s <;> rfl
  | rest h hlt => exact Nat.add_comm _ _
  | @leave o =>
    have hq : queued? (.busy place (.submit (.leave o)) below)
        (Point.land place below (.done p o)) = none := rfl
    change 0 = (queued? _ _ : Option (Item ι α)).toList.countP f + 0 + _
    rw [TurnMove.map, Move.embed, hq, due_done hs]
    rfl
  | _ => rfl

theorem Point.books {cap : Nat} {G : Nat → Ghost (Item ι α)} {pt : RingPoint ι α}
    {a : RingMove ι α} (hs : Framed n c pt) (hk : (pt.view n).Knows cap G) (ha : a ∈ pt.moves p) :
    Books f pt a := by
  cases Point.taken ha with
  | loop d hd => exact Loop.books hs
  | run d hd => exact Run.books hs hd
  | submit d hd => exact Submit.books hs hk hd
  | shutdown d hd => exact Shutdown.books hs
  | await d hz hd =>
    refine books_of_still rfl rfl rfl ?_
    cases d <;> rfl

end Due

section Runs

def threadDue : RingThread ι α → Nat
  | .running _ pt => pt.due f
  | .finished _ _ => 0

variable [BEq ι] {c : Config} {cores : Nat} {p : Rings ι α} {log : Log ι α} {k : RingCrew ι α}

theorem run_books {allowed : RingCrew ι α → Call ι α → Prop} (hp : Pool.new c cores = .ok p)
    (hin : ∀ k c, allowed k c → Enters p.size c) (h : Crew.Run calls allowed ⟨p, []⟩ log k)
    (hb : claims log < 2 ^ 63) :
    (submitted log).countP f + (executed log).countP f =
      (queued log).countP f + (begun log).countP f + Crew.total (threadDue f) k := by
  induction h with
  | refl => rfl
  | start _ d _ ih =>
    rw [ih hb, Crew.total_start]
    cases d <;> simp [threadDue, calls, Call.enter, Point.due, Submit.due]
  | move hr ha ih =>
    rename_i log s before after d pt a
    have hb' := claims_lt (List.suffix_cons _ _) hb
    obtain ⟨G, -, hk⟩ := run_firm hp hin hr hb' f
    obtain ⟨hframed, hknows⟩ := hk (.running d pt) (by simp)
    have hbooks := Point.books (f := f) hframed hknows ha
    have ih := ih hb'
    have hland : threadDue f (a.land d).2 = a.read (Point.due f) fun _ => 0 := by
      cases a <;> rfl
    have hqueued : (queued (⟨before.length, d, s, pt, a⟩ :: log)).countP f =
        (queued log).countP f + (queued? pt a).toList.countP f := by
      cases h : queued? pt a <;> simp [queued, h, List.countP_cons]
    have hexecuted : (executed (⟨before.length, d, s, pt, a⟩ :: log)).countP f =
        (executed log).countP f + (executed? pt).toList.countP f := by
      cases h : executed? pt <;> simp [executed, h, List.countP_cons]
    rw [Crew.total_split, Crew.total_state _ _ s, hland, countP_submitted_cons, countP_begun_cons,
      hqueued, hexecuted]
    rw [Crew.total_split] at ih
    change _ = _ + (pt.due f + _) at ih
    rw [Books] at hbooks
    dsimp only
    omega

end Runs

end Pool

end WorkStealing
