import WorkStealing.Proofs.Crew.Run
import Mathlib.Data.List.Forall2

namespace WorkStealing

variable {S C P R : Type}

namespace Thread

def call : Thread C P R → C
  | .running c _ | .finished c _ => c

inductive Later : Thread C P R → Thread C P R → Prop where
  | same (t : Thread C P R) : Later t t
  | on {c : C} {p : P} {t : Thread C P R} (h : t.call = c) : Later (.running c p) t

variable {t u w : Thread C P R}

theorem Later.call_eq (h : Later t u) : u.call = t.call := by
  cases h with
  | same => rfl
  | on h => exact h

theorem Later.trans (h : Later t u) (h' : Later u w) : Later t w := by
  cases h with
  | same => exact h'
  | on h => exact .on (h'.call_eq.trans h)

theorem Later.forall₂_trans {ts us ws : List (Thread C P R)} (h : List.Forall₂ Later ts us)
    (h' : List.Forall₂ Later us ws) : List.Forall₂ Later ts ws := by
  induction h generalizing ws with
  | nil => exact h'
  | cons hab _ ih =>
    cases h' with
    | cons hbc hrest => exact .cons (hab.trans hbc) (ih hrest)

theorem Later.forall₂_refl (ts : List (Thread C P R)) : List.Forall₂ Later ts ts :=
  List.forall₂_same.2 fun t _ => .same t

theorem Later.exists_mem {ts us : List (Thread C P R)} (h : List.Forall₂ Later ts us)
    (hu : u ∈ us) : ∃ t ∈ ts, Later t u := by
  induction h with
  | nil => cases hu
  | cons hab _ ih =>
    rcases List.mem_cons.1 hu with rfl | hu
    · exact ⟨_, List.mem_cons_self, hab⟩
    · obtain ⟨t, ht, hl⟩ := ih hu
      exact ⟨t, List.mem_cons_of_mem _ ht, hl⟩

theorem Later.filterMap_eq {X : Type} {f : Thread C P R → Option X} {ts us : List (Thread C P R)}
    (h : List.Forall₂ Later ts us)
    (hf : ∀ c p, .running c p ∈ ts → ∀ u : Thread C P R, u.call = c → f u = none) :
    us.filterMap f = ts.filterMap f := by
  induction h with
  | nil => rfl
  | cons hab _ ih =>
    have ih := ih fun c p ht => hf c p (List.mem_cons_of_mem _ ht)
    cases hab with
    | same => rw [List.filterMap_cons, List.filterMap_cons, ih]
    | on he =>
      rw [List.filterMap_cons_none (hf _ _ List.mem_cons_self _ he),
        List.filterMap_cons_none (hf _ _ List.mem_cons_self (.running _ _) rfl), ih]

theorem Later.countP_eq {f : C → Bool} {ts us : List (Thread C P R)}
    (h : List.Forall₂ Later ts us) :
    us.countP (fun t => f t.call) = ts.countP fun t => f t.call := by
  induction h with
  | nil => rfl
  | cons hab _ ih => rw [List.countP_cons, List.countP_cons, ih, hab.call_eq]

end Thread

theorem Move.call_land (c : C) (a : Move S P R) : (a.land c).2.call = c := by cases a <;> rfl

namespace Crew

open Thread

variable {m : Machine S C P R} {allowed allowed' : Crew S C P R → C → Prop} {first k : Crew S C P R}
  {log : List (Entry S C P R)}

theorem Run.mono (ha : ∀ k c, allowed k c → allowed' k c) (h : Run m allowed first log k) :
    Run m allowed' first log k := by
  induction h with
  | refl => exact .refl
  | start _ c hc ih => exact ih.start c (ha _ c hc)
  | move _ hm ih => exact ih.move hm

theorem foldl_start (k : Crew S C P R) (cs : List C) : cs.foldl (start m) k =
    ⟨k.state, k.threads ++ cs.map fun c => .running c (m.enter c)⟩ := by
  induction cs generalizing k with
  | nil => simp
  | cons c cs ih => simp [ih, start]

theorem Run.start_all {cs : List C} (hc : ∀ k, ∀ c ∈ cs, allowed k c)
    (h : Run m allowed first log k) : Run m allowed first log (cs.foldl (Crew.start m) k) := by
  induction cs generalizing k with
  | nil => exact h
  | cons c cs ih =>
    exact ih (fun k d hd => hc k d (List.mem_cons_of_mem c hd))
      (h.start c (hc k c List.mem_cons_self))

theorem Run.later (h : Run m (fun _ _ => False) first log k) :
    List.Forall₂ Later first.threads k.threads := by
  induction h with
  | refl => exact Later.forall₂_refl _
  | start _ c hc => exact hc.elim
  | move _ ha ih =>
    exact Later.forall₂_trans ih (List.rel_append (Later.forall₂_refl _)
      (.cons (.on (Move.call_land _ _)) (Later.forall₂_refl _)))

theorem eq_of_append_cons {X : Type} {before after old : List X} {x y : X}
    (h : before ++ x :: after = old ++ [y]) (hx : x ∉ old) :
    before = old ∧ x = y ∧ after = [] := by
  rcases List.append_eq_append_iff.1 h with ⟨as, rfl, has⟩ | ⟨bs, rfl, hbs⟩
  · cases as with
    | nil => simpa using has
    | cons u us =>
      obtain ⟨rfl, -⟩ := List.cons.inj has
      exact absurd (by simp) hx
  · cases bs with
    | nil => simpa [eq_comm] using hbs
    | cons u us => simp at hbs

theorem Run.forced {old : List (Thread C P R)} {s : S} {c : C} {p : P} {a : Move S P R}
    (stuck : ∀ d q, .running d q ∈ old → m.moves s q = []) (only : m.moves s p = [a])
    (h : Run m (fun _ _ => False) ⟨s, old ++ [.running c p]⟩ log k) (hq : Quiet m k) :
    ∃ recent, Run m (fun _ _ => False) ⟨(a.land c).1, old ++ [(a.land c).2]⟩ recent k := by
  suffices hk : k = ⟨s, old ++ [.running c p]⟩ ∨
      ∃ recent, Run m (fun _ _ => False) ⟨(a.land c).1, old ++ [(a.land c).2]⟩ recent k by
    rcases hk with rfl | hk
    · have hnil : m.moves s p = [] := hq c p (by simp)
      rw [only] at hnil
      cases hnil
    · exact hk
  clear hq
  induction h with
  | refl => exact .inl rfl
  | start _ d hd => exact hd.elim
  | move _ ha ih =>
    rename_i t before after d q b _
    rcases ih with hk | ⟨recent, hk⟩
    · obtain ⟨rfl, hthreads⟩ := Crew.mk.inj hk
      obtain ⟨rfl, he, rfl⟩ := eq_of_append_cons hthreads fun hmem =>
        List.ne_nil_of_mem ha (stuck d q hmem)
      obtain ⟨rfl, rfl⟩ := Thread.running.inj he
      rw [only, List.mem_singleton] at ha
      exact .inr ⟨[], ha ▸ .refl⟩
    · exact .inr ⟨_, hk.move ha⟩

section Weight

variable {weight : Thread C P R → Nat}
  (drop : ∀ s c p a, a ∈ m.moves s p → weight (a.land c).2 < weight (.running c p))

include drop

theorem Run.length_add_le (h : Run m (fun _ _ => False) first log k) :
    log.length + total weight k ≤ total weight first := by
  induction h with
  | refl => simp
  | start _ d hd => exact hd.elim
  | move _ ha ih =>
    rename_i s before after c p a _
    have hdrop := drop s c p a ha
    rw [total_split] at ih ⊢
    rw [List.length_cons, total_state weight _ s]
    omega

theorem exists_quiet (k : Crew S C P R) :
    ∃ log l, Run m (fun _ _ => False) k log l ∧ Quiet m l := by
  generalize hw : total weight k = w
  induction w using Nat.strong_induction_on generalizing k with
  | _ w ih =>
    obtain ⟨s, ts⟩ := k
    by_cases hq : Quiet m ⟨s, ts⟩
    · exact ⟨[], ⟨s, ts⟩, .refl, hq⟩
    · simp only [Quiet, not_forall] at hq
      obtain ⟨c, p, ht, hmoves⟩ := hq
      obtain ⟨a, ha⟩ := List.exists_mem_of_ne_nil _ hmoves
      obtain ⟨before, after, rfl⟩ := List.append_of_mem ht
      have hstep : Run m (fun _ _ => False) ⟨s, before ++ .running c p :: after⟩
          [⟨before.length, c, s, p, a⟩] ⟨(a.land c).1, before ++ (a.land c).2 :: after⟩ :=
        .move .refl ha
      have hless : total weight ⟨(a.land c).1, before ++ (a.land c).2 :: after⟩ < w := by
        have hdrop := drop s c p a ha
        rw [total_split] at hw ⊢
        rw [total_state weight _ s]
        omega
      obtain ⟨log, l, hrun, hl⟩ := ih _ hless _ rfl
      exact ⟨_, l, hstep.append hrun, hl⟩

end Weight

/-- A call during which all others are stuck comes to what it would on its own. `I` is where it is
alone; from where `J` holds it may have company. -/
theorem Run.solo {I : S → P → Prop} {J : P → Prop} {G : R → Prop}
    {old : List (Thread C P R)} {s : S} {c : C} {p : P}
    (stuck : ∀ s p, I s p → ∀ d q, .running d q ∈ old → m.moves s q = [])
    (alone : ∀ s p a, I s p → a ∈ m.moves s p →
      (∃ t q, a = .go t q ∧ (I t q ∨ J q)) ∨ ∃ t x, a = .done t x ∧ G x)
    (joined : ∀ s p a, J p → a ∈ m.moves s p →
      (∃ t q, a = .go t q ∧ J q) ∨ ∃ t x, a = .done t x ∧ G x)
    (enter : I s p) (h : Run m (fun _ _ => False) ⟨s, old ++ [.running c p]⟩ log k) :
    (∃ p, k.threads[old.length]? = some (.running c p)) ∨
      ∃ x, k.threads[old.length]? = some (.finished c x) ∧ G x := by
  suffices hk : (∃ p, k.threads = old ++ [.running c p] ∧ I k.state p) ∨
      (∃ p, k.threads[old.length]? = some (.running c p) ∧ J p) ∨
      ∃ x, k.threads[old.length]? = some (.finished c x) ∧ G x by
    rcases hk with ⟨p, hp, -⟩ | ⟨p, hp, -⟩ | hx
    · exact .inl ⟨p, by simp [hp]⟩
    · exact .inl ⟨p, hp⟩
    · exact .inr hx
  induction h with
  | refl => exact .inl ⟨p, rfl, enter⟩
  | start _ d hd => exact hd.elim
  | move _ ha ih =>
    rename_i s before after d q a _
    have hself (u : Thread C P R) (he : before.length = old.length) :
        (before ++ u :: after)[old.length]? = some u := by simp [← he]
    rcases ih with ⟨p, hp, hi⟩ | ⟨p, hp, hj⟩ | ⟨x, hx, hg⟩
    · obtain ⟨rfl, he, rfl⟩ := eq_of_append_cons hp fun hmem =>
        List.ne_nil_of_mem ha (stuck _ _ hi d q hmem)
      obtain ⟨rfl, rfl⟩ := Thread.running.inj he
      rcases alone _ _ _ hi ha with ⟨t, r, rfl, hi | hj⟩ | ⟨t, x, rfl, hg⟩
      · exact .inl ⟨r, rfl, hi⟩
      · exact .inr (.inl ⟨r, hself _ rfl, hj⟩)
      · exact .inr (.inr ⟨x, hself _ rfl, hg⟩)
    · by_cases he : before.length = old.length
      · obtain ⟨rfl, rfl⟩ : d = c ∧ q = p := by simpa [hself _ he] using hp
        rcases joined _ _ _ hj ha with ⟨t, r, rfl, hj⟩ | ⟨t, x, rfl, hg⟩
        · exact .inr (.inl ⟨r, hself _ he, hj⟩)
        · exact .inr (.inr ⟨x, hself _ he, hg⟩)
      · exact .inr (.inl ⟨p, getElem?_append_cons_of_ne he ▸ hp, hj⟩)
    · have he : before.length ≠ old.length := fun he => by simp [hself _ he] at hx
      exact .inr (.inr ⟨x, getElem?_append_cons_of_ne he ▸ hx, hg⟩)

end Crew

end WorkStealing
