import WorkStealing.Proofs.Pool.Frame
import WorkStealing.Proofs.Pool.History

namespace WorkStealing.Pool

variable {ι α : Type}

abbrev RingSubmit (ι α : Type) := Submit (Ring.Push (Item ι α)) ι α

abbrev SubmitMove (ι α : Type) := TurnMove (Ring (Item ι α)) ι α (RingSubmit ι α)

def Turn.point {X : Type} : Turn ι α X → X
  | .stay x | .call x _ => x

structure Stride (ι α : Type) where
  pool : Rings ι α
  point : RingSubmit ι α
  move : SubmitMove ι α

/-- A submission under way, with the steps it has made, the latest first. Before each of them the pool
is any that satisfies `I`, and what it calls ends in any way. -/
inductive Trail [BEq ι] (I : Rings ι α → Prop) (o : Order ι α) :
    List (Stride ι α) → RingSubmit ι α → Prop where
  | begin : Trail I o [] (.begin o)
  | stay {log : List (Stride ι α)} {x y : RingSubmit ι α} {p q : Rings ι α} (h : Trail I o log x)
    (hp : I p) (ha : .go q (.stay y) ∈ x.moves p) : Trail I o (⟨p, x, .go q (.stay y)⟩ :: log) y
  | call {log : List (Stride ι α)} {x y : RingSubmit ι α} {p q : Rings ι α} {c : Callee ι α}
    (h : Trail I o log x) (hp : I p) (ha : .go q (.call y c) ∈ x.moves p) (e : Outcome) :
    Trail I o (⟨p, x, .go q (.call y c)⟩ :: log) (y.resume e)

def Recorded (i : Nat) (log : Log ι α) (below : List (RingActivity ι α))
    (strides : List (Stride ι α)) : Prop :=
  ∀ e ∈ strides, ∃ d ∈ log, d.thread = i ∧ d.before = e.pool ∧ ∃ place,
    d.point = .busy place (.submit e.point) below ∧
      d.move = Point.land place below (e.move.map .submit)

section Trails

variable [BEq ι] (I : Rings ι α → Prop) (i : Nat) (log : Log ι α) (c : Call ι α)

def OnTrail (below : List (RingActivity ι α)) : RingActivity ι α → Prop
  | .submit s => ∃ o strides, (below = [] → c = .submit o) ∧ Trail I o strides s ∧
      Recorded i log below strides
  | _ => True

def Trails : List (RingActivity ι α) → Prop
  | [] => True
  | x :: below => (∀ policy o, OnTrail I i log c below (x.resume policy o)) ∧ Trails below

def ThreadTrails : RingThread ι α → Prop
  | .running c (.busy _ top below) => OnTrail I i log c below top ∧ Trails I i log c below
  | _ => True

end Trails

section Step

variable {i : Nat} {log log' : Log ι α} {c : Call ι α} {below : List (RingActivity ι α)}
  {strides : List (Stride ι α)}

theorem Recorded.mono (hl : ∀ d ∈ log, d ∈ log') (h : Recorded i log below strides) :
    Recorded i log' below strides := by
  intro e he
  obtain ⟨d, hd, hrest⟩ := h e he
  exact ⟨d, hl d hd, hrest⟩

theorem Recorded.cons (h : Recorded i log below strides) (place : Place) (e : Stride ι α) :
    Recorded i (⟨i, c, e.pool, .busy place (.submit e.point) below,
      Point.land place below (e.move.map .submit)⟩ :: log) below (e :: strides) := by
  intro d hd
  rcases List.mem_cons.1 hd with rfl | hd
  · exact ⟨_, List.mem_cons_self, rfl, rfl, place, rfl, rfl⟩
  · exact h.mono (fun _ => List.mem_cons_of_mem _) d hd

variable [BEq ι] {I : Rings ι α → Prop} {p : Rings ι α}

theorem OnTrail.mono {x : RingActivity ι α} (hl : ∀ d ∈ log, d ∈ log')
    (h : OnTrail I i log c below x) : OnTrail I i log' c below x := by
  cases x with
  | submit s =>
    obtain ⟨o, strides, hc, htrail, hrec⟩ := h
    exact ⟨o, strides, hc, htrail, hrec.mono hl⟩
  | _ => trivial

theorem Trails.mono (hl : ∀ d ∈ log, d ∈ log') (h : Trails I i log c below) :
    Trails I i log' c below := by
  induction below with
  | nil => trivial
  | cons x below ih => exact ⟨fun policy o => (h.1 policy o).mono hl, ih h.2⟩

theorem ThreadTrails.mono {t : RingThread ι α} (hl : ∀ d ∈ log, d ∈ log')
    (h : ThreadTrails I i log t) : ThreadTrails I i log' t := by
  rcases t with ⟨c, ⟨place, top, below⟩ | _⟩ | _
  · exact ⟨h.1.mono hl, h.2.mono hl⟩
  · trivial
  · trivial

theorem threadTrails_land {place : Place} {a : TurnMove (Ring (Item ι α)) ι α (RingActivity ι α)}
    (hb : Trails I i log c below) (hstay : ∀ q x, a = .go q (.stay x) → OnTrail I i log c below x)
    (hcall : ∀ q x k, a = .go q (.call x k) → ∀ policy o, OnTrail I i log c below (x.resume policy o)) :
    ThreadTrails I i log ((Point.land place below a).land c).2 := by
  rcases a with ⟨q, x | ⟨x, k⟩⟩ | ⟨q, o⟩
  · exact ⟨hstay q x rfl, hb⟩
  · refine ⟨?_, hcall q x k rfl, hb⟩
    cases k with
    | run t => trivial
    | submit o => exact ⟨o, [], by simp, .begin, by simp [Recorded]⟩
  · cases below with
    | nil => trivial
    | cons x below => exact ⟨hb.1 _ o, hb.2⟩

theorem ThreadTrails.step {pt : RingPoint ι α} {a : RingMove ι α} (hp : I p) (ha : a ∈ pt.moves p)
    (h : ThreadTrails I i log (.running c pt)) :
    ThreadTrails I i (⟨i, c, p, pt, a⟩ :: log) (a.land c).2 := by
  have hl (d) (hd : d ∈ log) : d ∈ (⟨i, c, p, pt, a⟩ :: log : Log ι α) := List.mem_cons_of_mem _ hd
  cases Point.taken ha with
  | submit d hd =>
    obtain ⟨⟨o, strides, hc, htrail, hrec⟩, hb⟩ := h
    refine threadTrails_land (hb.mono hl) (fun q x he => ?_) fun q x k he policy e => ?_
    · rcases d with ⟨q', x' | ⟨x', k'⟩⟩ | _ <;> cases he
      exact ⟨o, _, hc, htrail.stay hp hd, hrec.cons _ _⟩
    · rcases d with ⟨q', x' | ⟨x', k'⟩⟩ | _ <;> cases he
      exact ⟨o, _, hc, htrail.call hp hd e, hrec.cons _ _⟩
  | loop d hd | run d hd | shutdown d hd =>
    refine threadTrails_land (h.2.mono hl) (fun q x he => ?_) fun q x k he policy e => ?_
    · rcases d with ⟨q', x' | ⟨x', k'⟩⟩ | _ <;> cases he
      trivial
    · rcases d with ⟨q', x' | ⟨x', k'⟩⟩ | _ <;> cases he
      trivial
  | await d _ _ => cases d <;> trivial

end Step

section Record

variable {p q : Rings ι α} {x y : RingSubmit ι α} {n i : Nat}

theorem Push.record_lt {s t : Push (Ring.Push (Item ι α)) ι α} (hn : 0 < p.size)
    (ha : .go q t ∈ s.moves p) (hi : t.record? = some i) : i < p.size := by
  cases Push.step ha with
  | place _ _ =>
    cases hi
    exact Nat.mod_lt _ hn
  | _ => cases hi

theorem Submit.record?_resume {o : Outcome} (hi : (x.resume o).record? = some i) :
    x.record? = some i := by
  cases x with
  | inline handle? =>
    cases o with
    | returned => cases handle? <;> cases hi
    | panicked _ => cases hi
  | _ => exact hi

variable [BEq ι]

theorem Submit.record_lt (hn : 0 < p.size) {k : Turn ι α (RingSubmit ι α)} (ha : .go q k ∈ x.moves p)
    (hi : k.point.record? = some i) : i < p.size := by
  cases Submit.step ha with
  | push h | pushChunk h => exact Push.record_lt hn h hi
  | @woken q w handle? h => cases handle? <;> cases hi
  | _ => cases hi

theorem Trail.record_lt {I : Rings ι α → Prop} {o : Order ι α} {log : List (Stride ι α)}
    (hI : ∀ p, I p → p.size = n) (hn : 0 < n) (h : Trail I o log x) (hi : x.record? = some i) :
    i < n := by
  cases h with
  | begin => cases hi
  | stay _ hp ha =>
    obtain rfl := hI _ hp
    exact Submit.record_lt hn ha hi
  | call _ hp ha e =>
    obtain rfl := hI _ hp
    exact Submit.record_lt hn ha (Submit.record?_resume hi)

theorem ThreadTrails.record_lt {I : Rings ι α → Prop} {log : Log ι α} {c : Call ι α}
    {pt : RingPoint ι α} {j : Nat} (hI : ∀ p, I p → p.size = n) (hn : 0 < n)
    (h : ThreadTrails I j log (.running c pt)) (hi : pt.record? = some i) : i < n := by
  rcases pt with ⟨place, top, below⟩ | ⟨slot, w⟩
  · cases top with
    | submit s =>
      obtain ⟨⟨o, strides, -, htrail, -⟩, -⟩ := h
      exact htrail.record_lt hI hn hi
    | _ => cases hi
  · cases hi

end Record

section Run

variable [BEq ι] {c : Config} {cores : Nat} {p : Rings ι α} {log : Log ι α} {k : RingCrew ι α}
  {allowed : RingCrew ι α → Call ι α → Prop}

/-- In a run of a pool each submission is on a trail of its own, whose steps are on record, and all
that it comes across of the pool is akin to what the pool was at first. -/
theorem run_trails (hn : 0 < p.size) (h : Crew.Run calls allowed ⟨p, []⟩ log k) :
    Akin (· < p.size) p k.state ∧ ∀ i t, k.threads[i]? = some t →
      ThreadTrails (Akin (· < p.size) p) i log t := by
  induction h with
  | refl => exact ⟨.refl p, by simp⟩
  | start hr d hd ih =>
    rename_i log k
    refine ⟨ih.1, fun i t ht => ?_⟩
    rw [Crew.start, List.getElem?_append] at ht
    split at ht
    · exact ih.2 i t ht
    · obtain rfl := List.mem_singleton.1 (List.mem_of_getElem? ht)
      cases d with
      | submit o => exact ⟨⟨o, [], fun _ => rfl, .begin, by simp [Recorded]⟩, trivial⟩
      | _ => trivial
  | move hr ha ih =>
    rename_i log s before after d pt a
    have hmover := ih.2 before.length (.running d pt) (by simp)
    have hstep := hmover.step ih.1 ha
    refine ⟨?_, fun i t ht => ?_⟩
    · rw [Move.fst_land]
      refine ih.1.trans (Point.akin (fun i hi => ?_) ha)
      exact hmover.record_lt (fun q hq => hq.size) hn hi
    · by_cases hi : before.length = i
      · subst hi
        obtain rfl : (a.land d).2 = t := by simpa using ht
        exact hstep
      · refine (ih.2 i t ?_).mono fun _ => List.mem_cons_of_mem _
        rw [← ht]
        exact Crew.getElem?_append_cons_of_ne hi

end Run

end WorkStealing.Pool
