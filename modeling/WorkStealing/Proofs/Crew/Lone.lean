import WorkStealing.Proofs.Crew.Run

namespace WorkStealing

variable {S T C P Q R A : Type}

inductive Reaches (moves : S → P → List (Move S P R)) : Move S P R → Move S P R → Prop where
  | refl (a : Move S P R) : Reaches moves a a
  | step {s : S} {p : P} {a b : Move S P R} (h : a ∈ moves s p) (rest : Reaches moves a b) :
    Reaches moves (.go s p) b

def Move.Resting (moves : S → P → List (Move S P R)) : Move S P R → Prop
  | .go s p => moves s p = []
  | .done _ _ => True

/-- From wherever the call gets to, it can still get to `z`, and there it rests. -/
def ComesTo (moves : S → P → List (Move S P R)) (a z : Move S P R) : Prop :=
  z.Resting moves ∧ ∀ b, Reaches moves a b → Reaches moves b z

/-- Wherever the call gets to, it has yet to come by `b` or has done so. -/
def Passes (moves : S → P → List (Move S P R)) (a b : Move S P R) : Prop :=
  Reaches moves a b ∧ ∀ c, Reaches moves a c → Reaches moves c b ∨ Reaches moves b c

section

variable {moves : S → P → List (Move S P R)} {a b c z : Move S P R} {s t : S} {p q : P}

theorem Reaches.trans (h : Reaches moves a b) (h' : Reaches moves b c) : Reaches moves a c := by
  induction h with
  | refl => exact h'
  | step h _ ih => exact .step h (ih h')

theorem Reaches.single (h : a ∈ moves s p) : Reaches moves (.go s p) a := .step h (.refl a)

theorem Reaches.eq_of_resting (hr : a.Resting moves) (h : Reaches moves a b) : b = a := by
  cases h with
  | refl => rfl
  | step h _ =>
    have hnil : moves _ _ = [] := hr
    rw [hnil] at h
    cases h

theorem Passes.refl (a : Move S P R) : Passes moves a a := ⟨.refl a, fun _ h => .inr h⟩

theorem Passes.trans (h : Passes moves a b) (h' : Passes moves b c) : Passes moves a c := by
  refine ⟨h.1.trans h'.1, fun d hd => ?_⟩
  rcases h.2 d hd with hdb | hbd
  · exact .inl (hdb.trans h'.1)
  · exact h'.2 d hbd

theorem Passes.comesTo (h : Passes moves a b) (h' : ComesTo moves b z) : ComesTo moves a z := by
  refine ⟨h'.1, fun c hc => ?_⟩
  rcases h.2 c hc with hcb | hbc
  · exact hcb.trans (h'.2 b (.refl b))
  · exact h'.2 c hbc

theorem ComesTo.rest (h : a.Resting moves) : ComesTo moves a a := by
  refine ⟨h, fun b hb => ?_⟩
  rw [hb.eq_of_resting h]
  exact .refl a

theorem ComesTo.passes (h : ComesTo moves a z) : Passes moves a z :=
  ⟨h.2 a (.refl a), fun b hb => .inl (h.2 b hb)⟩

theorem passes_of_moves (h : moves s p = [a]) : Passes moves (.go s p) a := by
  refine ⟨.single (h ▸ List.mem_singleton_self a), fun c hc => ?_⟩
  cases hc with
  | refl => exact .inl (.single (h ▸ List.mem_singleton_self a))
  | step hm hrest =>
    rw [h, List.mem_singleton] at hm
    exact .inr (hm ▸ hrest)

theorem passes_of_closed {I : Move S P R → Prop} (ha : I a) (reach : ∀ c, I c → Reaches moves c b)
    (closed : ∀ s p, I (.go s p) → ∀ c ∈ moves s p, c = b ∨ I c) : Passes moves a b := by
  refine ⟨reach a ha, fun c hc => ?_⟩
  induction hc with
  | refl => exact .inl (reach _ ha)
  | step hm hrest ih =>
    rcases closed _ _ ha _ hm with rfl | hi
    · exact .inr hrest
    · exact ih hi

/-- A step that may fail and be made again gets through in the end. -/
theorem passes_of_retry (h : moves s p = [b, .go t q])
    (hretry : moves t q = [.go s p] ∨ (.go t q : Move S P R) = .go s p) :
    Passes moves (.go s p) b := by
  have hnext : Reaches moves (.go s p) b := .single (by simp [h])
  rcases hretry with hretry | hsame
  · refine passes_of_closed (I := fun c => c = .go s p ∨ c = .go t q) (.inl rfl) ?_ ?_
    · rintro c (rfl | rfl)
      · exact hnext
      · exact .step (by simp [hretry]) hnext
    · rintro u r (he | he) c hc <;> obtain ⟨rfl, rfl⟩ := Move.go.inj he
      · simpa [h, or_assoc] using Or.imp_right Or.inr (List.mem_pair.1 (h ▸ hc))
      · exact .inr (.inl (List.mem_singleton.1 (hretry ▸ hc)))
  · refine passes_of_closed (I := fun c => c = .go s p) rfl ?_ ?_
    · rintro c rfl
      exact hnext
    · rintro u r he c hc
      obtain ⟨rfl, rfl⟩ := Move.go.inj he
      rw [h, hsame] at hc
      exact List.mem_pair.1 hc

end

section Embed

variable {f : S → P → List (Move S P R)} {g : T → Q → List (Move T Q A)}
  {E : Move S P R → Move T Q A} {I : S → Prop} {a b : Move S P R}

/-- While the state is in `I`, the steps of a part are the steps of the whole. -/
structure Embeds (f : S → P → List (Move S P R)) (g : T → Q → List (Move T Q A))
    (E : Move S P R → Move T Q A) (I : S → Prop) : Prop where
  keep : ∀ s p a, I s → a ∈ f s p → I a.state
  moves : ∀ s p, I s → ∃ t q, E (.go s p) = .go t q ∧ g t q = (f s p).map E

theorem Reaches.map (h : Reaches f a b) (hE : Embeds f g E I) (hi : I a.state) :
    Reaches g (E a) (E b) := by
  induction h with
  | refl => exact .refl _
  | @step s p _ _ hm _ ih =>
    obtain ⟨t, q, he, hg⟩ := hE.moves s p hi
    rw [he]
    exact .step (hg ▸ List.mem_map_of_mem hm) (ih (hE.keep _ _ _ hi hm))

theorem Reaches.keep (h : Reaches f a b) (hE : Embeds f g E I) (hi : I a.state) : I b.state := by
  induction h with
  | refl => exact hi
  | step hm _ ih => exact ih (hE.keep _ _ _ hi hm)

theorem Reaches.of_map {c : Move T Q A} (h : Reaches g (E a) c) (hE : Embeds f g E I)
    (hi : I a.state) : (∃ b, Reaches f a b ∧ c = E b) ∨
      ∃ s r, Reaches f a (.done s r) ∧ Reaches g (E (.done s r)) c := by
  generalize hx : E a = x at h
  induction h generalizing a with
  | refl => exact .inl ⟨a, .refl a, hx.symm⟩
  | step hm hrest ih =>
    cases a with
    | done s r => exact .inr ⟨s, r, .refl _, hx ▸ .step hm hrest⟩
    | go s p =>
      obtain ⟨t, q, he, hg⟩ := hE.moves s p hi
      obtain ⟨rfl, rfl⟩ := Move.go.inj (he.symm.trans hx)
      rw [hg] at hm
      obtain ⟨b, hb, rfl⟩ := List.mem_map.1 hm
      rcases ih (hE.keep _ _ _ hi hb) rfl with ⟨d, hd, hc⟩ | ⟨u, r, hd, hc⟩
      · exact .inl ⟨d, .step hb hd, hc⟩
      · exact .inr ⟨u, r, .step hb hd, hc⟩

theorem Passes.map (h : Passes f a b) (hE : Embeds f g E I) (hi : I a.state) :
    Passes g (E a) (E b) := by
  refine ⟨h.1.map hE hi, fun c hc => ?_⟩
  rcases hc.of_map hE hi with ⟨d, hd, rfl⟩ | ⟨s, r, hd, hc⟩
  · exact (h.2 d hd).imp (·.map hE (hd.keep hE hi)) (·.map hE (h.1.keep hE hi))
  · rcases h.2 _ hd with hb | hb
    · rw [hb.eq_of_resting (show (Move.done s r).Resting f from trivial)]
      exact .inr hc
    · exact .inr ((hb.map hE (h.1.keep hE hi)).trans hc)

end Embed

namespace Crew

def ComesTo (m : Machine S C P R) (k l : Crew S C P R) : Prop :=
  Quiet m l ∧
    ∀ j, Reachable m (fun _ _ => False) k j → Reachable m (fun _ _ => False) j l

variable {m : Machine S C P R} {s : S} {c : C} {before after : List (Thread C P R)}

def withMove (before after : List (Thread C P R)) (c : C) (a : Move S P R) : Crew S C P R :=
  ⟨(a.land c).1, before ++ (a.land c).2 :: after⟩

theorem reachable_withMove {first : Crew S C P R} {a b : Move S P R} (h : Reaches m.moves a b)
    (hr : Reachable m (fun _ _ => False) first (withMove before after c a)) :
    Reachable m (fun _ _ => False) first (withMove before after c b) := by
  induction h with
  | refl => exact hr
  | step hm _ ih => exact ih (hr.step (.move _ before after c _ _ hm))

theorem mem_of_getElem?_append_cons {X : Type} {xs ys : List X} {x y : X} {i : Nat}
    (hi : xs.length ≠ i) (h : (xs ++ x :: ys)[i]? = some y) : y ∈ xs ++ ys := by
  rcases Nat.lt_or_gt_of_ne hi with hlt | hgt
  · rw [List.getElem?_append_right hlt.le, List.getElem?_cons, if_neg (by omega)] at h
    exact List.mem_append_right _ (List.mem_of_getElem? h)
  · rw [List.getElem?_append_left hgt] at h
    exact List.mem_append_left _ (List.mem_of_getElem? h)

theorem reachable_lone {J : S → Prop} (keep : ∀ s p a, J s → a ∈ m.moves s p → J a.state)
    (stuck : ∀ s, J s → ∀ d q, .running d q ∈ before ++ after → m.moves s q = [])
    {a : Move S P R} {k : Crew S C P R} (hj : J a.state)
    (h : Reachable m (fun _ _ => False) (withMove before after c a) k) :
    ∃ b, Reaches m.moves a b ∧ J b.state ∧ k = withMove before after c b := by
  induction h with
  | refl => exact ⟨a, .refl a, hj, rfl⟩
  | step _ hs ih =>
    obtain ⟨b, hb, hjb, rfl⟩ := ih
    generalize hk : withMove before after c b = k at hs
    cases hs with
    | start k d hd => exact hd.elim
    | move s xs ys d p e he =>
      obtain ⟨hstate, hthreads⟩ := Crew.mk.inj hk
      rw [Move.fst_land] at hstate
      subst hstate
      -- the mover is the one call that is not stuck
      have hself : before.length = xs.length := by
        by_contra hne
        have hget : (before ++ (b.land c).2 :: after)[xs.length]? = some (.running d p) := by
          rw [hthreads, List.getElem?_append_right le_rfl, Nat.sub_self, List.getElem?_cons_zero]
        exact List.ne_nil_of_mem he (stuck _ hjb d p (mem_of_getElem?_append_cons hne hget))
      obtain ⟨rfl, htail⟩ := List.append_inj hthreads hself
      obtain ⟨hland, rfl⟩ := List.cons.inj htail
      cases b with
      | done s r => cases hland
      | go s q =>
        obtain ⟨rfl, rfl⟩ := Thread.running.inj hland
        exact ⟨e, hb.trans (.single he), keep _ _ _ hjb he, rfl⟩

theorem comesTo_lone {J : S → Prop} (keep : ∀ s p a, J s → a ∈ m.moves s p → J a.state)
    (stuck : ∀ s, J s → ∀ d q, .running d q ∈ before ++ after → m.moves s q = [])
    {a z : Move S P R} (hj : J a.state) (h : WorkStealing.ComesTo m.moves a z) :
    ComesTo m (withMove before after c a) (withMove before after c z) := by
  constructor
  · have hreach : Reachable m (fun _ _ => False) (withMove before after c a)
        (withMove before after c z) := reachable_withMove h.passes.1 .refl
    obtain ⟨b, hb, hjb, he⟩ := reachable_lone keep stuck hj hreach
    intro d q ht
    have hz : J z.state := by
      have hstate := congrArg Crew.state he
      simp only [withMove, Move.fst_land] at hstate
      rwa [hstate]
    have hcases : .running d q ∈ before ++ after ∨ .running d q = (z.land c).2 := by
      simp only [withMove, List.mem_append, List.mem_cons] at ht ⊢
      tauto
    rcases hcases with ht | ht
    · rw [withMove, Move.fst_land]
      exact stuck _ hz d q ht
    · cases z with
      | done s r => cases ht
      | go s p =>
        obtain ⟨rfl, rfl⟩ := Thread.running.inj ht
        exact h.1
  · intro k hk
    obtain ⟨b, hb, -, rfl⟩ := reachable_lone keep stuck hj hk
    exact reachable_withMove (h.2 b hb) .refl

end Crew

end WorkStealing
