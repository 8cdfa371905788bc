import WorkStealing.Gate.Basic
import Mathlib.Algebra.Order.Ring.Int

namespace WorkStealing

def Fits (z : Int) : Prop := -2 ^ 63 ≤ z ∧ z < 2 ^ 63

instance (z : Int) : Decidable (Fits z) := inferInstanceAs (Decidable (_ ∧ _))

namespace Semaphore

theorem toInt_add {c : Int64} {n : Nat} (h : Fits (c.toInt + n)) :
    (c + .ofNat n).toInt = c.toInt + n := by
  rw [Int64.toInt_add, Int64.toInt_ofNat', Int.add_bmod_bmod]
  exact Int.bmod_eq_of_le h.1 h.2

theorem toInt_sub_one {c : Int64} (h : Fits (c.toInt - 1)) : (c - 1).toInt = c.toInt - 1 := by
  rw [Int64.toInt_sub]
  exact Int.bmod_eq_of_le h.1 h.2

def Post.adds : Post → Int
  | .add n => n
  | .release _ => 0

def Wait.adds : Wait → Int
  | .subtract => -1
  | .acquire => 0

inductive Post.Step (s : Semaphore) : Post → Move Semaphore Post Unit → Prop where
  | add {n : Nat} {t : Semaphore} (h : 0 ≤ s.count.toInt) (hc : t.count.toInt = s.count.toInt + n)
      (hp : t.permits = s.permits) : Step s (.add n) (.done t ())
  | owe {n : Nat} {t : Semaphore} (h : s.count.toInt < 0)
      (hc : t.count.toInt = s.count.toInt + n) (hp : t.permits = s.permits) :
      Step s (.add n) (.go t (.release (min s.count.toInt.natAbs n)))
  | release {n : Nat} {t : Semaphore} (hc : t.count = s.count) (hp : t.permits = s.permits + n) :
      Step s (.release n) (.done t ())

theorem Post.step {s : Semaphore} {p : Post} {a : Move Semaphore Post Unit} (ha : a ∈ p.moves s)
    (hf : Fits (s.count.toInt + p.adds)) : p.Step s a := by
  cases p with
  | add n =>
    simp only [Post.moves] at ha
    split at ha
    · rename_i h
      obtain rfl := List.mem_singleton.1 ha
      exact .owe (by simpa [Int64.lt_iff_toInt_lt] using h) (toInt_add hf) rfl
    · rename_i h
      obtain rfl := List.mem_singleton.1 ha
      exact .add (by simpa [Int64.lt_iff_toInt_lt] using h) (toInt_add hf) rfl
  | release n =>
    obtain rfl := List.mem_singleton.1 ha
    exact .release rfl rfl

inductive Wait.Step (s : Semaphore) : Wait → Move Semaphore Wait Unit → Prop where
  | pass {t : Semaphore} (h : 0 < s.count.toInt) (hc : t.count.toInt = s.count.toInt - 1)
      (hp : t.permits = s.permits) : Step s .subtract (.done t ())
  | sink {t : Semaphore} (h : s.count.toInt ≤ 0) (hc : t.count.toInt = s.count.toInt - 1)
      (hp : t.permits = s.permits) : Step s .subtract (.go t .acquire)
  | acquire {t : Semaphore} (hc : t.count = s.count) (hp : s.permits = t.permits + 1) :
      Step s .acquire (.done t ())

theorem Wait.step {s : Semaphore} {p : Wait} {a : Move Semaphore Wait Unit} (ha : a ∈ p.moves s)
    (hf : Fits (s.count.toInt + p.adds)) : p.Step s a := by
  cases p with
  | subtract =>
    simp only [Wait.moves] at ha
    split at ha
    · rename_i h
      obtain rfl := List.mem_singleton.1 ha
      exact .sink (by simpa [Int64.le_iff_toInt_le] using h) (toInt_sub_one hf) rfl
    · rename_i h
      obtain rfl := List.mem_singleton.1 ha
      exact .pass (by simpa [Int64.le_iff_toInt_le] using h) (toInt_sub_one hf) rfl
  | acquire =>
    simp only [Wait.moves] at ha
    split at ha
    · simp at ha
    · rename_i n h
      obtain rfl := List.mem_singleton.1 ha
      exact .acquire rfl h

theorem Wait.eq_of_go {s t : Semaphore} {p q : Wait} (h : .go t q ∈ p.moves s) :
    p = .subtract ∧ q = .acquire := by
  cases p with
  | subtract =>
    simp only [Wait.moves] at h
    split at h <;> simp_all
  | acquire =>
    simp only [Wait.moves] at h
    split at h <;> simp at h

theorem Post.eq_of_go {s t : Semaphore} {p q : Post} (h : .go t q ∈ p.moves s) :
    ∃ n l, p = .add n ∧ q = .release l := by
  cases p with
  | add n =>
    simp only [Post.moves] at h
    split at h <;> simp_all
  | release n => simp [Post.moves] at h

theorem Wait.moves_eq_nil {s : Semaphore} {p : Wait} (h : p.moves s = []) :
    p = .acquire ∧ s.permits = 0 := by
  cases p with
  | subtract =>
    simp only [Wait.moves] at h
    split at h <;> simp at h
  | acquire =>
    refine ⟨rfl, ?_⟩
    simp only [Wait.moves] at h
    split at h
    · assumption
    · simp at h

theorem Post.moves_ne_nil (s : Semaphore) (p : Post) : p.moves s ≠ [] := by
  cases p with
  | add n =>
    simp only [Post.moves]
    split <;> simp
  | release n => simp [Post.moves]

end Semaphore

namespace Gate

def Notify.adds : Notify → Int
  | .look _ => 0
  | .post _ p => p.adds

inductive Notify.Step (g : Gate) : Notify → Move Gate Notify Nat → Prop where
  | none {limit : Nat} (h : min g.sleepers limit = 0) : Step g (.look limit) (.done g 0)
  | some {limit n : Nat} (h : min g.sleepers limit = n + 1) :
      Step g (.look limit) (.go g (.post (n + 1) (.add (n + 1))))
  | post {n : Nat} {p : Semaphore.Post} {a : Move Semaphore Semaphore.Post Unit}
      (h : p.Step g.semaphore a) : Step g (.post n p)
        (a.embed g.setSemaphore (.post n) fun s _ => .done (g.setSemaphore s) n)

theorem Notify.step {g : Gate} {p : Notify} {a : Move Gate Notify Nat} (ha : a ∈ p.moves g)
    (hf : Fits (g.semaphore.count.toInt + p.adds)) : p.Step g a := by
  cases p with
  | look limit =>
    simp only [Notify.moves] at ha
    split at ha
    · rename_i h
      obtain rfl := List.mem_singleton.1 ha
      exact .none h
    · rename_i n h
      obtain rfl := List.mem_singleton.1 ha
      exact .some h
  | post n p =>
    obtain ⟨b, hb, rfl⟩ := List.mem_map.1 ha
    exact .post (Semaphore.Post.step hb hf)

theorem Notify.moves_ne_nil (g : Gate) (p : Notify) : p.moves g ≠ [] := by
  cases p with
  | look limit =>
    simp only [Notify.moves]
    split <;> simp
  | post n p => simpa [Notify.moves] using Semaphore.Post.moves_ne_nil g.semaphore p

end Gate

end WorkStealing
