import WorkStealing.Proofs.Crew.Lone
import WorkStealing.Proofs.Latch.Step

namespace WorkStealing

theorem Semaphore.passes_post (s : Semaphore) (n : Nat) :
    ∃ s', Passes Semaphore.Post.moves (.go s (.add n)) (.done s' ()) := by
  let added : Semaphore := { s with count := s.count + .ofNat n }
  by_cases hneg : s.count < 0
  · have hadd : Semaphore.Post.moves s (.add n) =
        [.go added (.release (min s.count.toInt.natAbs n))] := if_pos hneg
    exact ⟨_, (passes_of_moves hadd).trans (passes_of_moves rfl)⟩
  · have hadd : Semaphore.Post.moves s (.add n) = [.done added ()] := if_neg hneg
    exact ⟨_, passes_of_moves hadd⟩

namespace Latch

def Sturdy (l : Latch) : Prop := ∀ a, l.shared = some a → ∃ s, l.semaphore? a = some s

variable {l : Latch} {a : Nat}

theorem semaphore?_put {s : Semaphore} (h : l.semaphore? a = some s) (t : Semaphore) :
    (l.setSemaphore a (some t)).semaphore? a = some t := by
  rw [semaphore?_setSemaphore _ _ (by simp [h]), if_pos rfl]

theorem setSemaphore_self {s : Semaphore} (h : l.semaphore? a = some s) :
    l.setSemaphore a (some s) = l := by
  obtain ⟨ha, hget⟩ := List.getElem?_eq_some_iff.1 (Option.join_eq_some_iff.1 h)
  rw [setSemaphore, ← hget, List.set_getElem_self]

theorem Owned.sturdy {own : Nat → Nat} (h : Owned l own) : l.Sturdy :=
  fun _ ha => ⟨l.main, h.main_eq ha⟩

theorem Sturdy.word (h : l.Sturdy) (word : Int64) : { l with word }.Sturdy := h

theorem passes_locate (h : l.Sturdy) : ∃ l' a s,
    Passes Locate.moves (.go l .look) (.done l' a) ∧ l'.shared = some a ∧
      l'.semaphore? a = some s := by
  cases hs : l.shared with
  | some a =>
    obtain ⟨s, hsem⟩ := h a hs
    have hlook : Locate.moves l .look = [.done l a] := by simp [Locate.moves, hs]
    exact ⟨l, a, s, passes_of_moves hlook, hs, hsem⟩
  | none =>
    let made : Latch := { l with semaphores := l.semaphores ++ [some {}] }
    have hlook : Locate.moves l .look = [.go made (.install l.semaphores.length)] := by
      simp [Locate.moves, hs, made]
    have hinstall : Locate.moves made (.install l.semaphores.length) =
        [.done { made with shared := some l.semaphores.length } l.semaphores.length] := by
      simp [Locate.moves, hs, made]
    refine ⟨_, _, {}, (passes_of_moves hlook).trans (passes_of_moves hinstall), rfl, ?_⟩
    simp [semaphore?, made]

theorem passes_wake {n : Nat} {s : Semaphore} (hs : l.shared = some a)
    (h : l.semaphore? a = some s) :
    ∃ l', Passes Post.moves (.go l (.wake a (.add n))) (.done l' true) ∧ l'.Sturdy := by
  obtain ⟨t, ht⟩ := s.passes_post n
  have hE : Embeds Semaphore.Post.moves Post.moves
      (Move.embed (fun s => l.setSemaphore a (some s)) (Post.wake a)
        fun s _ => .done (l.setSemaphore a (some s)) true) fun _ => True := by
    refine ⟨fun _ _ _ _ _ => trivial, fun u q _ => ⟨_, _, rfl, ?_⟩⟩
    simp only [Post.moves, semaphore?_put h]
    simp only [Latch.setSemaphore, List.set_set]
  have hmap := ht.map hE trivial
  rw [Move.embed, setSemaphore_self h] at hmap
  refine ⟨_, hmap, fun b hb => ?_⟩
  obtain rfl : a = b := Option.some.inj (hs.symm.trans hb)
  exact ⟨t, semaphore?_put h t⟩

theorem passes_post (h : l.Sturdy) (n : Int32) :
    ∃ l' x, Passes Post.moves (.go l (.look n)) (.done l' x) ∧ l'.Sturdy := by
  by_cases hopen : remaining l.word ≤ 0
  · have hlook : Post.moves l (.look n) = [.done l false] := by
      simp [Post.moves, Post.judge, hopen]
    exact ⟨l, false, passes_of_moves hlook, h⟩
  let down : Latch := { l with word := countDown l.word n }
  have hlook : Post.moves l (.look n) = [.go l (.swap n l.word)] := by
    simp [Post.moves, Post.judge, hopen]
  have hswap : Post.moves l (.swap n l.word) = [Post.proceed down, .go l (.swap n l.word)] := by
    simp [Post.moves, Post.judge, hopen, down]
  have hstart := (passes_of_moves hlook).trans (passes_of_retry hswap (.inr rfl))
  by_cases hcalm : 0 < down.count ∨ down.waiters = 0
  · have hproceed : Post.proceed down = .done down false := by
      rcases hcalm with hc | hc <;> simp [Post.proceed, hc]
    exact ⟨down, false, hproceed ▸ hstart, h.word _⟩
  · rw [not_or] at hcalm
    have hproceed : Post.proceed down = .go down (.locate down.waiters .look) := by
      rw [Post.proceed, if_neg hcalm.1, if_neg hcalm.2]
    obtain ⟨found, a, s, hfound, hs, hsem⟩ := passes_locate (h.word (countDown l.word n))
    have hE : Embeds Locate.moves Post.moves (Move.embed id (Post.locate down.waiters)
        fun l a => .go l (.wake a (.add down.waiters.toNat))) fun _ => True :=
      ⟨fun _ _ _ _ _ => trivial, fun u q _ => ⟨_, _, rfl, rfl⟩⟩
    obtain ⟨l', hwake, hsturdy⟩ := passes_wake (n := down.waiters.toNat) hs hsem
    exact ⟨l', true, (hproceed ▸ hstart).trans ((hfound.map hE trivial).trans hwake), hsturdy⟩

end Latch

end WorkStealing
