import WorkStealing.Crew
import Mathlib.Algebra.BigOperators.Group.List.Basic
import Mathlib.Algebra.Order.BigOperators.Group.List
import Mathlib.Algebra.Order.Group.Multiset
import Mathlib.Algebra.Order.Group.Nat
import Mathlib.Algebra.Group.Pi.Basic
import Mathlib.Tactic.Abel

namespace WorkStealing

def Move.share {S P R M : Type} [Zero M] (f : P → M) : Move S P R → M
  | .go _ p => f p
  | .done _ _ => 0

theorem Move.fst_land {S C P R : Type} (c : C) (a : Move S P R) : (a.land c).1 = a.state := by
  cases a <;> rfl

namespace Crew

variable {S C P R M G : Type}

structure Entry (S C P R : Type) where
  thread : Nat
  call : C
  before : S
  point : P
  move : Move S P R

/-- The record has the latest step first. -/
inductive Run (m : Machine S C P R) (allowed : Crew S C P R → C → Prop) (first : Crew S C P R) :
    List (Entry S C P R) → Crew S C P R → Prop where
  | refl : Run m allowed first [] first
  | start {log : List (Entry S C P R)} {k : Crew S C P R} (h : Run m allowed first log k) (c : C)
      (hc : allowed k c) : Run m allowed first log (k.start m c)
  | move {log : List (Entry S C P R)} {s : S} {before after : List (Thread C P R)} {c : C} {p : P}
      {a : Move S P R} (h : Run m allowed first log ⟨s, before ++ .running c p :: after⟩)
      (ha : a ∈ m.moves s p) :
      Run m allowed first (⟨before.length, c, s, p, a⟩ :: log)
        ⟨(a.land c).1, before ++ (a.land c).2 :: after⟩

variable {m : Machine S C P R} {allowed : Crew S C P R → C → Prop} {first : Crew S C P R}

theorem Run.reachable {log : List (Entry S C P R)} {k : Crew S C P R}
    (h : Run m allowed first log k) : Reachable m allowed first k := by
  induction h with
  | refl => exact .refl
  | start _ c hc ih => exact ih.step (.start _ c hc)
  | move _ ha ih => exact ih.step (.move _ _ _ _ _ _ ha)

theorem Run.thread_lt {log : List (Entry S C P R)} {k : Crew S C P R}
    (h : Run m allowed first log k) : ∀ e ∈ log, e.thread < k.threads.length := by
  induction h with
  | refl => simp
  | start _ c _ ih =>
    intro e he
    simpa [Crew.start] using Nat.lt_succ_of_lt (ih e he)
  | move _ _ ih =>
    intro e he
    rcases List.mem_cons.1 he with rfl | he
    · simp
    · simpa using ih e he

theorem Run.append {older recent : List (Entry S C P R)} {j k : Crew S C P R}
    (h : Run m allowed first older j) (hr : Run m allowed j recent k) :
    Run m allowed first (recent ++ older) k := by
  induction hr with
  | refl => exact h
  | start _ c hc ih => exact ih.start c hc
  | move _ ha ih => exact ih.move ha

theorem Run.since {e : Entry S C P R} {older recent : List (Entry S C P R)} {k : Crew S C P R}
    (h : Run m allowed first (recent ++ e :: older) k) : ∃ before after,
      Run m allowed first older ⟨e.before, before ++ .running e.call e.point :: after⟩ ∧
        before.length = e.thread ∧ e.move ∈ m.moves e.before e.point ∧
        Run m allowed ⟨e.before, before ++ .running e.call e.point :: after⟩ (recent ++ [e]) k := by
  generalize hl : recent ++ e :: older = log at h
  induction h generalizing recent with
  | refl => simp at hl
  | start _ c hc ih =>
    obtain ⟨before, after, hr, hi, hm, hrest⟩ := ih hl
    exact ⟨before, after, hr, hi, hm, hrest.start c hc⟩
  | move hr ha ih =>
    rename_i before after c p a
    cases recent with
    | nil =>
      obtain ⟨rfl, rfl⟩ := List.cons.inj hl
      exact ⟨before, after, hr, rfl, ha, .move .refl ha⟩
    | cons e' recent =>
      obtain ⟨rfl, htail⟩ := List.cons.inj hl
      obtain ⟨before', after', hr', hi, hm, hrest⟩ := ih htail
      exact ⟨before', after', hr', hi, hm, hrest.move ha⟩

theorem Run.entry {e : Entry S C P R} {older log : List (Entry S C P R)} {k : Crew S C P R}
    (h : Run m allowed first log k) (hs : e :: older <:+ log) : ∃ before after,
      Run m allowed first older ⟨e.before, before ++ .running e.call e.point :: after⟩ ∧
        before.length = e.thread ∧ e.move ∈ m.moves e.before e.point := by
  obtain ⟨recent, rfl⟩ := hs
  obtain ⟨before, after, hr, hi, hm, -⟩ := h.since
  exact ⟨before, after, hr, hi, hm⟩

theorem getElem?_append_cons_of_ne {X : Type} {before after : List X} {x y : X} {i : Nat}
    (h : before.length ≠ i) : (before ++ x :: after)[i]? = (before ++ y :: after)[i]? := by
  rcases Nat.lt_or_gt_of_ne h with hlt | hgt
  · obtain ⟨d, rfl⟩ := Nat.exists_eq_add_of_lt hlt
    simp [List.getElem?_append_right, Nat.add_assoc]
  · simp [List.getElem?_append_left hgt]

/-- What holds of every thread with the record of the run, by the steps of that thread alone. Each
of them is a step on the way to `k`. -/
theorem Run.thread_to (H : Nat → List (Entry S C P R) → Thread C P R → Prop)
    {log : List (Entry S C P R)} {k : Crew S C P R} (h : Run m allowed first log k)
    (init : ∀ i t, first.threads[i]? = some t → H i [] t)
    (start : ∀ log k c, Run m allowed first log k → allowed k c →
      H k.threads.length log (.running c (m.enter c)))
    (other : ∀ i t e log, e.thread ≠ i → H i log t → H i (e :: log) t)
    (move : ∀ older recent s before after c p a,
      Run m allowed first older ⟨s, before ++ .running c p :: after⟩ → a ∈ m.moves s p →
      Run m allowed ⟨s, before ++ .running c p :: after⟩ recent k → recent ++ older = log →
      H before.length older (.running c p) →
      H before.length (⟨before.length, c, s, p, a⟩ :: older) (a.land c).2)
    {i : Nat} {t : Thread C P R} (ht : k.threads[i]? = some t) : H i log t := by
  suffices hall : ∀ older l, Run m allowed first older l → ∀ recent, Run m allowed l recent k →
      recent ++ older = log → ∀ i t, l.threads[i]? = some t → H i older t from
    hall log k h [] .refl rfl i t ht
  intro older l hr
  induction hr with
  | refl => exact fun _ _ _ => init
  | start hr c hc ih =>
    rename_i older l
    intro recent hk hlog i t ht
    rw [Crew.start] at ht
    by_cases hi : i < l.threads.length
    · rw [List.getElem?_append_left hi] at ht
      have hk' := (Run.refl.start c hc).append hk
      rw [List.append_nil] at hk'
      exact ih recent hk' hlog i t ht
    · rw [List.getElem?_append_right (by omega)] at ht
      obtain ⟨h0, rfl⟩ : i - l.threads.length = 0 ∧ .running c (m.enter c) = t := by
        simpa [List.getElem?_singleton] using ht
      obtain rfl : i = l.threads.length := by omega
      exact start older l c hr hc
  | move hr ha ih =>
    rename_i older s before after c p a
    intro recent hk hlog i t ht
    have hk' := (Run.refl.move ha).append hk
    have hlog' : recent ++ [⟨before.length, c, s, p, a⟩] ++ older = log := by simpa using hlog
    by_cases hb : i = before.length
    · subst hb
      obtain rfl : (a.land c).2 = t := by simpa using ht
      exact move older _ s before after c p a hr ha hk' hlog' (ih _ hk' hlog' _ _ (by simp))
    · refine other i t _ older (Ne.symm hb) (ih _ hk' hlog' i t ?_)
      rw [← ht]
      exact getElem?_append_cons_of_ne (Ne.symm hb)

theorem Run.thread (H : Nat → List (Entry S C P R) → Thread C P R → Prop)
    (init : ∀ i t, first.threads[i]? = some t → H i [] t)
    (start : ∀ log k c, Run m allowed first log k → allowed k c →
      H k.threads.length log (.running c (m.enter c)))
    (other : ∀ i t e log, e.thread ≠ i → H i log t → H i (e :: log) t)
    (move : ∀ log s before after c p a,
      Run m allowed first log ⟨s, before ++ .running c p :: after⟩ → a ∈ m.moves s p →
      H before.length log (.running c p) →
      H before.length (⟨before.length, c, s, p, a⟩ :: log) (a.land c).2)
    {log : List (Entry S C P R)} {k : Crew S C P R} (h : Run m allowed first log k) {i : Nat}
    {t : Thread C P R} (ht : k.threads[i]? = some t) : H i log t :=
  h.thread_to H init start other
    (fun older _ s before after c p a hr ha _ _ => move older s before after c p a hr ha) ht

theorem running_start {Q : C → P → Prop} {k : Crew S C P R} {d : C}
    (h : ∀ c p, .running c p ∈ k.threads → Q c p) (hd : Q d (m.enter d)) :
    ∀ c p, .running c p ∈ (k.start m d).threads → Q c p := by
  intro c p ht
  rcases List.mem_append.1 ht with ht | ht
  · exact h c p ht
  · cases List.mem_singleton.1 ht
    exact hd

theorem running_land {Q : C → P → Prop} {before after : List (Thread C P R)} {d : C} {q : P}
    {a : Move S P R} (h : ∀ c p, .running c p ∈ before ++ .running d q :: after → Q c p)
    (ha : ∀ s p, a = .go s p → Q d p) :
    ∀ c p, .running c p ∈ before ++ (a.land d).2 :: after → Q c p := by
  intro c p ht
  rcases List.mem_append.1 ht with ht | ht
  · exact h c p (List.mem_append_left _ ht)
  · rcases List.mem_cons.1 ht with ht | ht
    · cases a <;> cases ht
      exact ha _ _ rfl
    · exact h c p (List.mem_append_right _ (List.mem_cons_of_mem _ ht))

theorem Run.idle (Calm : Thread C P R → Prop)
    (back : ∀ s c p a, a ∈ m.moves s p → Calm (a.land c).2 → Calm (.running c p) ∧ a.state = s)
    (init : first.threads = []) {log : List (Entry S C P R)} {k : Crew S C P R}
    (h : Run m allowed first log k) {i : Nat} {t : Thread C P R} (ht : k.threads[i]? = some t)
    (hc : Calm t) : ∀ e ∈ log, e.thread = i → e.move.state = e.before := by
  refine h.thread (fun i log t => Calm t → ∀ e ∈ log, e.thread = i → e.move.state = e.before)
    ?_ ?_ ?_ ?_ ht hc
  · simp [init]
  · intro log k c hr _ _ e he hi
    exact absurd (hr.thread_lt e he) (by omega)
  · intro i t e log hne ih hc d hd hi
    rcases List.mem_cons.1 hd with rfl | hd
    · exact absurd hi hne
    · exact ih hc d hd hi
  · intro log s before after c p a _ ha ih hc e he hi
    obtain ⟨hp, hs⟩ := back s c p a ha hc
    rcases List.mem_cons.1 he with rfl | he
    · exact hs
    · exact ih hp e he hi

theorem Run.sublist_filterMap {X : Type} (f : Thread C P R → Option X)
    (hf : ∀ s c p a x, a ∈ m.moves s p → f (.running c p) = some x → f (a.land c).2 = some x)
    {log : List (Entry S C P R)} {k : Crew S C P R} (h : Run m allowed first log k) :
    (first.threads.filterMap f).Sublist (k.threads.filterMap f) := by
  induction h with
  | refl => exact .refl _
  | start _ c _ ih =>
    refine ih.trans ?_
    rw [Crew.start, List.filterMap_append]
    exact List.sublist_append_left _ _
  | move _ ha ih =>
    rename_i c p a _
    refine ih.trans ?_
    simp only [List.filterMap_append]
    refine (List.Sublist.refl _).append ?_
    cases hx : f (.running c p) with
    | none =>
      rw [List.filterMap_cons_none hx]
      exact (List.sublist_cons_self _ _).filterMap f
    | some x => rw [List.filterMap_cons_some hx, List.filterMap_cons_some (hf _ _ _ _ _ ha hx)]

section Total

variable [AddCommMonoid M]

def total (share : Thread C P R → M) (k : Crew S C P R) : M := (k.threads.map share).sum

theorem total_start (share : Thread C P R → M) (k : Crew S C P R) (c : C) :
    total share (k.start m c) = share (.running c (m.enter c)) + total share k := by
  simp [total, start, add_comm]

theorem total_split (share : Thread C P R → M) (s : S) (before after : List (Thread C P R))
    (t : Thread C P R) :
    total share ⟨s, before ++ t :: after⟩ = share t + total share ⟨s, before ++ after⟩ := by
  simp only [total, List.map_append, List.map_cons, List.sum_append, List.sum_cons]
  abel

theorem total_append (share : Thread C P R → M) (s : S) (ts us : List (Thread C P R)) :
    total share ⟨s, ts ++ us⟩ = total share ⟨s, ts⟩ + total share ⟨s, us⟩ := by
  simp only [total, List.map_append, List.sum_append]

theorem total_state (share : Thread C P R → M) (s t : S) (threads : List (Thread C P R)) :
    total share ⟨s, threads⟩ = total share ⟨t, threads⟩ := rfl

theorem total_singleton (k : Crew S C P R) :
    total (fun t => ({t} : Multiset (Thread C P R))) k = k.threads := by
  simp only [total]
  induction k.threads with
  | nil => rfl
  | cons t ts ih => rw [List.map_cons, List.sum_cons, ih, Multiset.singleton_add, Multiset.cons_coe]

theorem total_apply {X : Type} (share : Thread C P R → X → M) (k : Crew S C P R) (x : X) :
    total share k x = total (fun t => share t x) k := by
  simp only [total]
  induction k.threads with
  | nil => rfl
  | cons t ts ih => simp [ih]

theorem total_add (f g : Thread C P R → M) (k : Crew S C P R) :
    total (fun t => f t + g t) k = total f k + total g k := List.sum_map_add

theorem total_le {f g : Thread C P R → Nat} {k : Crew S C P R} (h : ∀ t ∈ k.threads, f t ≤ g t) :
    total f k ≤ total g k := List.sum_le_sum h

theorem total_mono {f g : Thread C P R → Nat} (h : ∀ t, f t ≤ g t) (k : Crew S C P R) :
    total f k ≤ total g k := total_le fun t _ => h t

theorem total_le_mul {f : Thread C P R → Nat} {n : Nat} {k : Crew S C P R}
    (h : ∀ t ∈ k.threads, f t ≤ n) : total f k ≤ k.threads.length * n := by
  have hle := List.sum_le_card_nsmul (k.threads.map f) n (by simpa using h)
  rwa [List.length_map] at hle

theorem le_total {f : Thread C P R → Nat} {k : Crew S C P R} {t : Thread C P R}
    (h : t ∈ k.threads) : f t ≤ total f k :=
  List.single_le_sum (fun _ _ => Nat.zero_le _) _ (List.mem_map_of_mem h)

theorem total_countP (f : Thread C P R → Bool) (k : Crew S C P R) :
    total (fun t => if f t then 1 else 0) k = k.threads.countP f := by
  simp only [total]
  induction k.threads with
  | nil => rfl
  | cons t ts ih => rw [List.map_cons, List.sum_cons, ih, List.countP_cons, Nat.add_comm]

theorem total_eq_zero {f : Thread C P R → Nat} {k : Crew S C P R}
    (h : ∀ t ∈ k.threads, f t = 0) : total f k = 0 :=
  List.sum_eq_zero (by simpa using h)

theorem count_filterMap {X : Type} [BEq X] [LawfulBEq X] [DecidableEq X] (f : Thread C P R → Option X)
    (k : Crew S C P R) (x : X) :
    (k.threads.filterMap f).count x = total (fun t => if f t = some x then 1 else 0) k := by
  simp only [total]
  induction k.threads with
  | nil => rfl
  | cons t ts ih =>
    rcases h : f t with _ | y
    · simp [h, ih]
    · by_cases e : y = x <;> simp [h, ih, e, Nat.add_comm]

/-- What a run keeps. `Inv` speaks of the state and the sum of all shares, and `Knows` of what a
single thread relies on; the ghost only grows, and what a thread relies on stays true of a larger
one. `Within` bounds the run, and holds of each part of a run that it holds of. -/
theorem Run.invariant (share : Thread C P R → M)
    (Inv : List (Entry S C P R) → G → S → M → Prop) (Knows : G → Thread C P R → Prop)
    (Within : List (Entry S C P R) → M → Prop) (le : G → G → Prop)
    (mono : ∀ g g' t, le g g' → Knows g t → Knows g' t)
    (init : ∃ g, Inv [] g first.state (total share first) ∧ ∀ t ∈ first.threads, Knows g t)
    (within_start : ∀ log n c, Within log (share (.running c (m.enter c)) + n) → Within log n)
    (within_move : ∀ log n i c s p a, a ∈ m.moves s p →
      Within (⟨i, c, s, p, a⟩ :: log) (share (a.land c).2 + n) →
      Within log (share (.running c p) + n))
    (start : ∀ log g k c, allowed k c → Inv log g k.state (total share k) →
      (∀ t ∈ k.threads, Knows g t) → ∃ g', le g g' ∧
      Inv log g' k.state (share (.running c (m.enter c)) + total share k) ∧
      Knows g' (.running c (m.enter c)))
    (move : ∀ log g n i c s p a, a ∈ m.moves s p → Inv log g s (share (.running c p) + n) →
      Knows g (.running c p) → Within (⟨i, c, s, p, a⟩ :: log) (share (a.land c).2 + n) →
      ∃ g', le g g' ∧
        Inv (⟨i, c, s, p, a⟩ :: log) g' (a.land c).1 (share (a.land c).2 + n) ∧
        Knows g' (a.land c).2)
    {log : List (Entry S C P R)} {k : Crew S C P R} (h : Run m allowed first log k)
    (hw : Within log (total share k)) :
    ∃ g, Inv log g k.state (total share k) ∧ ∀ t ∈ k.threads, Knows g t := by
  -- the mover's share is split off the sum; all that the others see of a step is the larger ghost
  induction h with
  | refl => exact init
  | start _ c hc ih =>
    rename_i log k
    rw [total_start] at hw ⊢
    obtain ⟨g, hi, hk⟩ := ih (within_start _ _ _ hw)
    obtain ⟨g', hl, hi', hn⟩ := start _ _ _ c hc hi hk
    refine ⟨g', hi', fun t ht => ?_⟩
    rcases List.mem_append.1 ht with ht | ht
    · exact mono _ _ _ hl (hk t ht)
    · exact List.mem_singleton.1 ht ▸ hn
  | move _ ha ih =>
    rename_i log s before after c p a _
    rw [total_split, total_state _ _ s] at hw ⊢
    rw [total_split] at ih
    obtain ⟨g, hi, hk⟩ := ih (within_move _ _ _ _ _ _ _ ha hw)
    obtain ⟨g', hl, hi', hn⟩ := move _ _ _ _ _ _ _ _ ha hi (hk _ (by simp)) hw
    refine ⟨g', hi', fun t ht => ?_⟩
    rcases List.mem_append.1 ht with hb | hb
    · exact mono _ _ _ hl (hk t (by simp [hb]))
    · rcases List.mem_cons.1 hb with rfl | ha'
      · exact hn
      · exact mono _ _ _ hl (hk t (by simp [ha']))

end Total

section Play

inductive Cue (C : Type) where
  | start (call : C)
  | move (thread choice : Nat)

def cue (m : Machine S C P R) (ok : Crew S C P R → C → Bool) (k : Crew S C P R) :
    Cue C → Option (List (Entry S C P R) × Crew S C P R)
  | .start c => if ok k c then some ([], k.start m c) else none
  | .move i j =>
    match k.threads[i]? with
    | some (.running c p) => (m.moves k.state p)[j]?.map fun a =>
        ([⟨i, c, k.state, p, a⟩],
          ⟨(a.land c).1, k.threads.take i ++ (a.land c).2 :: k.threads.drop (i + 1)⟩)
    | _ => none

def play (m : Machine S C P R) (ok : Crew S C P R → C → Bool) :
    List (Cue C) → List (Entry S C P R) → Crew S C P R →
      Option (List (Entry S C P R) × Crew S C P R)
  | [], log, k => some (log, k)
  | q :: qs, log, k =>
    match cue m ok k q with
    | some (new, l) => play m ok qs (new ++ log) l
    | none => none

variable {ok : Crew S C P R → C → Bool}

theorem run_cue (hok : ∀ k c, ok k c → allowed k c) {log new : List (Entry S C P R)}
    {k l : Crew S C P R} {q : Cue C} (h : Run m allowed first log k)
    (hq : cue m ok k q = some (new, l)) : Run m allowed first (new ++ log) l := by
  cases q with
  | start c =>
    obtain ⟨hc, rfl, rfl⟩ : ok k c ∧ [] = new ∧ k.start m c = l := by simpa [cue] using hq
    exact h.start c (hok k c hc)
  | move i j =>
    simp only [cue] at hq
    split at hq
    · rename_i c p ht
      obtain ⟨a, ha, he⟩ := Option.map_eq_some_iff.1 hq
      obtain ⟨rfl, rfl⟩ := Prod.mk.inj he
      obtain ⟨hi, hg⟩ := List.getElem?_eq_some_iff.1 ht
      have hk : k = ⟨k.state, k.threads.take i ++ .running c p :: k.threads.drop (i + 1)⟩ := by
        rw [← hg, List.cons_getElem_drop_succ, List.take_append_drop]
      rw [hk] at h
      have hl : (k.threads.take i).length = i := by simp; omega
      have := h.move (List.mem_of_getElem? ha)
      rwa [hl] at this
    · simp at hq

theorem run_play (hok : ∀ k c, ok k c → allowed k c) {qs : List (Cue C)}
    {log log' : List (Entry S C P R)} {k k' : Crew S C P R} (h : Run m allowed first log k)
    (hp : play m ok qs log k = some (log', k')) : Run m allowed first log' k' := by
  induction qs generalizing log k with
  | nil =>
    obtain ⟨rfl, rfl⟩ : log = log' ∧ k = k' := by simpa [play] using hp
    exact h
  | cons q qs ih =>
    simp only [play] at hp
    split at hp
    · rename_i new l hq
      exact ih (run_cue hok h hq) hp
    · simp at hp

theorem exists_run_of_play {X : Type} (hok : ∀ k c, ok k c → allowed k c) {qs : List (Cue C)}
    {f : List (Entry S C P R) × Crew S C P R → X} {x : X}
    (h : (play m ok qs [] first).map f = some x) :
    ∃ log k, Run m allowed first log k ∧ f (log, k) = x := by
  obtain ⟨⟨log, k⟩, hp, hx⟩ := Option.map_eq_some_iff.1 h
  exact ⟨log, k, run_play hok .refl hp, hx⟩

theorem exists_runs_of_play {X : Type} (hok : ∀ k c, ok k c → allowed k c) {ps qs : List (Cue C)}
    {f : List (Entry S C P R) × Crew S C P R → List (Entry S C P R) × Crew S C P R → X} {x : X}
    (h : ((play m ok ps [] first).bind fun y => (play m ok qs [] y.2).map (f y)) = some x) :
    ∃ older j recent k, Run m allowed first older j ∧ Run m allowed j recent k ∧
      f (older, j) (recent, k) = x := by
  obtain ⟨⟨older, j⟩, hp, hx⟩ := Option.bind_eq_some_iff.1 h
  obtain ⟨recent, k, hk, hx⟩ := exists_run_of_play hok hx
  exact ⟨older, j, recent, k, run_play hok .refl hp, hk, hx⟩

end Play

end Crew

end WorkStealing
