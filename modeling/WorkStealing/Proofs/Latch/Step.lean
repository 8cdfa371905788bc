import WorkStealing.Latch.Script
import WorkStealing.Proofs.Crew.Run
import WorkStealing.Proofs.Gate.Balance
import WorkStealing.Proofs.Latch.Word

/-!
What the threads at a latch add up to. Until it opens, those that found no permit are just what the
semaphore's count is below zero. The post that opens it owes a permit to each waiter registered by
then, so that from there on the count and the permits still owed come to the number of waiters that
have yet to reach the semaphore; who registers later turns back without touching it.
-/

namespace WorkStealing.Latch

abbrev Caller := Thread Call Point Reply

/-- The semaphore in use. Nobody has touched it before there is one. -/
def main (l : Latch) : Semaphore := (l.shared.bind l.semaphore?).getD {}

section Ownership

/-- Each semaphore there is belongs to the latch or to the one thread that is about to install it. -/
structure Owned (l : Latch) (own : Nat → Nat) : Prop where
  owners : ∀ a, own a + (if l.shared = some a then 1 else 0) =
    if (l.semaphore? a).isSome then 1 else 0
  fresh : ∀ a s, l.shared ≠ some a → l.semaphore? a = some s → s = {}

def Locate.own : Locate → Nat → Nat
  | .look, _ => 0
  | .install a, b => if a = b then 1 else 0

inductive Locate.Step (l : Latch) : Locate → Move Latch Locate Nat → Prop where
  | find {a : Nat} (h : l.shared = some a) : Step l .look (.done l a)
  | make (h : l.shared = none) : Step l .look
      (.go { l with semaphores := l.semaphores ++ [some {}] } (.install l.semaphores.length))
  | install {own : Nat} (h : l.shared = none) :
      Step l (.install own) (.done { l with shared := some own } own)
  | free {own a : Nat} (h : l.shared = some a) :
      Step l (.install own) (.done (l.setSemaphore own none) a)

variable {l : Latch} {own : Nat → Nat} {a : Nat} {s t : Semaphore}

theorem Locate.step {p : Locate} {m : Move Latch Locate Nat} (hm : m ∈ p.moves l) : p.Step l m := by
  cases p <;> simp only [moves] at hm <;> split at hm <;> rename_i h <;>
    obtain rfl := List.mem_singleton.1 hm
  · exact .find h
  · exact .make h
  · exact .install h
  · exact .free h

theorem semaphore?_setSemaphore (x : Option Semaphore) (b : Nat) (h : (l.semaphore? a).isSome) :
    (l.setSemaphore a x).semaphore? b = if a = b then x else l.semaphore? b := by
  have hlt : a < l.semaphores.length := by
    by_contra hge
    simp [semaphore?, List.getElem?_eq_none (Nat.not_lt.1 hge)] at h
  simp only [semaphore?, setSemaphore, List.getElem?_set]
  split
  · rfl
  · rfl

theorem Owned.isSome (h : Owned l own) (ha : l.shared = some a) : (l.semaphore? a).isSome := by
  have := h.owners a
  rw [if_pos ha] at this
  by_contra hn
  rw [if_neg hn] at this
  omega

theorem Owned.main_eq (h : Owned l own) (ha : l.shared = some a) : l.semaphore? a = some l.main := by
  obtain ⟨s, hs⟩ := Option.isSome_iff_exists.1 (h.isSome ha)
  rw [main, ha, Option.bind_some, hs]
  rfl

theorem Owned.setMain (h : Owned l own) (ha : l.shared = some a) (s : Semaphore) :
    Owned (l.setSemaphore a (some s)) own ∧ (l.setSemaphore a (some s)).main = s := by
  have hlive := h.isSome ha
  have hget (b) := semaphore?_setSemaphore (some s) b hlive
  have hshared : (l.setSemaphore a (some s)).shared = l.shared := rfl
  refine ⟨⟨fun b => ?_, fun b t hb ht => ?_⟩, ?_⟩
  · rw [hget, hshared, h.owners b]
    by_cases he : a = b
    · subst he
      rw [if_pos rfl, hlive]
      rfl
    · rw [if_neg he]
  · have hne : a ≠ b := fun he => hb (he ▸ ha)
    rw [hget, if_neg hne] at ht
    exact h.fresh b t hb ht
  · rw [main, hshared, ha, Option.bind_some, hget, if_pos rfl]
    rfl

theorem Owned.make (h : Owned l own) :
    Owned { l with semaphores := l.semaphores ++ [some {}] }
      ((Locate.install l.semaphores.length).own + own) := by
  let t : Latch := { l with semaphores := l.semaphores ++ [some {}] }
  have hget (b) : t.semaphore? b = if l.semaphores.length = b then some {} else l.semaphore? b := by
    simp only [t, semaphore?]
    split
    · rename_i he
      simp [← he]
    · rename_i he
      rcases Nat.lt_or_gt_of_ne he with hlt | hgt
      · rw [List.getElem?_eq_none (by simp; omega), List.getElem?_eq_none (by omega)]
      · rw [List.getElem?_append_left hgt]
  have hnone : l.semaphore? l.semaphores.length = none := by simp [semaphore?]
  constructor
  · intro b
    have hown := h.owners b
    change (if l.semaphores.length = b then 1 else 0) + own b + _ = ite ((t.semaphore? b).isSome) _ _
    rw [hget, Nat.add_assoc, hown]
    by_cases he : l.semaphores.length = b
    · subst he
      rw [hnone, if_pos rfl, if_pos rfl]
      rfl
    · rw [if_neg he, if_neg he, Nat.zero_add]
  · intro b s hb hs
    change t.semaphore? b = some s at hs
    rw [hget] at hs
    split at hs
    · exact (Option.some.inj hs).symm
    · exact h.fresh b s hb hs

theorem Owned.of_install (h : Owned l ((Locate.install a).own + own)) :
    (l.semaphore? a).isSome ∧ l.shared ≠ some a := by
  have hown := h.owners a
  simp only [Pi.add_apply, Locate.own, if_true] at hown
  by_cases hs : (l.semaphore? a).isSome
  · refine ⟨hs, fun hl => ?_⟩
    rw [if_pos hl, if_pos hs] at hown
    omega
  · rw [if_neg hs] at hown
    omega

theorem Owned.install (h : Owned l ((Locate.install a).own + own)) (hl : l.shared = none) :
    Owned { l with shared := some a } own ∧ ({ l with shared := some a } : Latch).main = {} := by
  obtain ⟨s, hs⟩ := Option.isSome_iff_exists.1 h.of_install.1
  obtain rfl := h.fresh a s h.of_install.2 hs
  refine ⟨⟨fun b => ?_, fun b s hb => h.fresh b s (by simp [hl])⟩, ?_⟩
  · have hown := h.owners b
    simp only [Pi.add_apply, Locate.own, hl, reduceCtorEq, if_false] at hown
    simp only [Option.some.injEq]
    rw [Nat.add_comm]
    exact hown
  · change (l.semaphore? a).getD {} = _
    rw [hs]
    rfl

theorem Owned.free (h : Owned l ((Locate.install a).own + own)) :
    Owned (l.setSemaphore a none) own ∧ (l.setSemaphore a none).main = l.main := by
  obtain ⟨hlive, hne⟩ := h.of_install
  have hget (b) := semaphore?_setSemaphore none b hlive
  have hshared : (l.setSemaphore a none).shared = l.shared := rfl
  refine ⟨⟨fun b => ?_, fun b s hb hs => ?_⟩, ?_⟩
  · have hown := h.owners b
    simp only [Pi.add_apply, Locate.own] at hown
    rw [hshared, hget]
    by_cases he : a = b
    · subst he
      rw [if_pos rfl, if_pos hlive] at hown
      simp only [if_true, Option.isSome_none, Bool.false_eq_true, if_false]
      omega
    · rw [if_neg he, Nat.zero_add] at hown
      rw [if_neg he, hown]
  · rw [hget] at hs
    split at hs
    · cases hs
    · exact h.fresh b s hb hs
  · rw [main, main, hshared]
    cases hl : l.shared with
    | none => rfl
    | some b =>
      have hab : a ≠ b := fun he => hne (he ▸ hl)
      rw [Option.bind_some, Option.bind_some, hget, if_neg hab]

theorem Locate.Step.owned {p : Locate} {m : Move Latch Locate Nat} (h : p.Step l m)
    (own : Nat → Nat) (ho : Owned l (p.own + own)) :
    Owned m.state (m.share Locate.own + own) ∧ m.state.main = l.main ∧ m.state.word = l.word ∧
      (∀ b, l.shared = some b → m.state.shared = some b) ∧
      match m with
      | .go _ _ => True
      | .done t b => t.shared = some b := by
  have hnone (hl : l.shared = none) : l.main = {} := by rw [main, hl]; rfl
  cases h with
  | find hl => exact ⟨ho, rfl, rfl, fun _ => id, hl⟩
  | make hl =>
    have ho' : Owned l own := by simpa [Locate.own, funext_iff, Pi.add_def] using ho
    exact ⟨ho'.make, by simp only [main, Move.state, hl]; rfl, rfl, fun _ => id, trivial⟩
  | install hl =>
    obtain ⟨ho', hmain⟩ := ho.install hl
    refine ⟨?_, hmain.trans (hnone hl).symm, rfl, fun b hb => by simp [hl] at hb, rfl⟩
    rwa [Move.share, zero_add]
  | free hl =>
    obtain ⟨ho', hmain⟩ := ho.free
    refine ⟨?_, hmain, rfl, fun _ => id, hl⟩
    rwa [Move.share, zero_add]

end Ownership

inductive Role where
  | idle
  | undoing
  | bound
  | acquiring
  | leaving
  | added
  | owed
  | opening
  | own (a : Nat)
  deriving DecidableEq

def Role.isOwn : Role → Bool
  | .own _ => true
  | _ => false

def Locate.roles (p : Locate) : Role → Nat
  | .own a => p.own a
  | _ => 0

def Post.roles : Post → Role → Nat
  | .look _, _ | .swap _ _, _ => 0
  | .locate _ _, .opening | .wake _ _, .opening => 1
  | .locate w _, .added => w.toNat
  | .wake _ (.add n), .added => n
  | .wake _ (.release n), .owed => n
  | .locate _ p, r => p.roles r
  | .wake _ _, _ => 0

def Wait.roles : Wait → Role → Nat
  | .peek, .idle | .register, .idle | .undo, .undoing | .locate _, .bound
  | .sleep _ .subtract, .bound | .sleep _ .acquire, .acquiring | .leave, .leaving => 1
  | .locate p, r => p.roles r
  | _, _ => 0

/-- A post that has opened the latch for somebody stays counted once it has returned. -/
def shares : Caller → Role → Nat
  | .running _ (.post p), r => p.roles r
  | .running _ (.wait p), r => p.roles r
  | .finished _ (.posted true), .opening => 1
  | _, _ => 0

def inside (m : Role → Nat) : Nat := m .undoing + m .bound + m .acquiring + m .leaving

structure Counted (c : Nat) (s : Semaphore) (m : Role → Nat) : Prop where
  room : m .idle + inside m < 2 ^ 32
  once : m .opening ≤ 1
  shut : 0 < c → m .undoing = 0 ∧ m .leaving = 0 ∧ m .opening = 0 ∧ m .added = 0 ∧ m .owed = 0 ∧
    s.permits = 0 ∧ s.count.toInt = -m .acquiring
  opened : c = 0 → s.count.toInt + m .added = m .bound
  waiting : m .acquiring = s.permits + m .owed + (-s.count.toInt).toNat

structure Balanced (c : Nat) (l : Latch) (m : Role → Nat) : Prop where
  word : Packs l.word c (inside m)
  counted : Counted c l.main m
  owned : Owned l fun a => m (.own a)

def Knows (l : Latch) : Caller → Prop
  | .running c (.offer n) => c = .post n
  | .running c (.post (.look n)) => c = .post n ∧ 0 < n.toInt
  | .running c (.post (.swap n seen)) => c = .post n ∧ 0 < n.toInt ∧ 0 < (remaining seen).toInt
  | .running c (.post (.locate _ _)) => ∃ n, c = .post n
  | .running c (.post (.wake a _)) => (∃ n, c = .post n) ∧ l.shared = some a
  | .running c (.wait (.sleep a _)) => c = .wait ∧ l.shared = some a
  | .running c (.wait _) => c = .wait
  | .finished c (.posted _) | .finished c (.refused _) => ∃ n, c = .post n
  | .finished c .passed => c = .wait ∧ l.count.toInt = 0
  | .finished _ (.alarmed _) => False

structure Later (l t : Latch) : Prop where
  opened : l.count.toInt = 0 → t.count.toInt = 0
  shared : ∀ a, l.shared = some a → t.shared = some a

theorem Later.knows {l t : Latch} (h : Later l t) {x : Caller} (hk : Knows l x) : Knows t x := by
  rcases x with ⟨c, n | (n | ⟨n, seen⟩ | ⟨w, p⟩ | ⟨a, p⟩) | (_ | _ | _ | p | ⟨a, p⟩ | _)⟩ |
    ⟨c, b | r | _ | c⟩
  case running.post.wake => exact ⟨hk.1, h.shared a hk.2⟩
  case running.wait.sleep => exact ⟨hk.1, h.shared a hk.2⟩
  case finished.passed => exact ⟨hk.1, h.opened hk.2⟩
  all_goals exact hk

/-- How much a step takes off the counter, but for what overshoots. -/
def amount (e : Crew.Entry Latch Call Point Reply) : Nat :=
  match e.point with
  | .post (.swap n _) => if e.move.state.word = e.before.word then 0 else n.toInt.toNat
  | _ => 0

def Post.looking : Post → Option Int32
  | .look k | .swap k _ => some k
  | _ => none

inductive Step (l : Latch) : Point → Move Latch Point Reply → Prop where
  | refuse {k : Int32} : Step l (.offer k) (.done l (.refused (.amount k)))
  | offer {k : Int32} (h : 0 < k.toInt) : Step l (.offer k) (.go l (.post (.look k)))
  | inert {p : Post} {k : Int32} (hp : p.looking = some k) (h : (remaining l.word).toInt ≤ 0) :
      Step l (.post p) (.done l (.posted false))
  | see {p : Post} {k : Int32} (hp : p.looking = some k) (h : 0 < (remaining l.word).toInt) :
      Step l (.post p) (.go l (.post (.swap k l.word)))
  | count {k : Int32} {t : Latch} (ht : t = { l with word := countDown l.word k })
      (h : 0 < t.count.toInt ∨ t.waiters.toNat = 0) :
      Step l (.post (.swap k l.word)) (.done t (.posted false))
  | release {k : Int32} {t : Latch} (ht : t = { l with word := countDown l.word k })
      (h : t.count.toInt ≤ 0) (hw : t.waiters.toNat ≠ 0) :
      Step l (.post (.swap k l.word)) (.go t (.post (.locate t.waiters .look)))
  | postLocate {w : UInt32} {p : Locate} {b : Move Latch Locate Nat} (h : p.Step l b) :
      Step l (.post (.locate w p)) (b.embed id (fun p => .post (.locate w p))
        fun l a => .go l (.post (.wake a (.add w.toNat))))
  | wake {a : Nat} {s : Semaphore} {p : Semaphore.Post} {b : Move Semaphore Semaphore.Post Unit}
      (hs : l.semaphore? a = some s) (h : b ∈ p.moves s) :
      Step l (.post (.wake a p)) (b.embed (fun s => l.setSemaphore a (some s))
        (fun p => .post (.wake a p)) fun s _ => .done (l.setSemaphore a (some s)) (.posted true))
  | pass (h : l.count.toInt ≤ 0) : Step l (.wait .peek) (.done l .passed)
  | enter : Step l (.wait .peek) (.go l (.wait .register))
  | late (h : l.count.toInt ≤ 0) :
      Step l (.wait .register) (.go { l with word := l.word + 1 } (.wait .undo))
  | join (h : 0 < l.count.toInt) :
      Step l (.wait .register) (.go { l with word := l.word + 1 } (.wait (.locate .look)))
  | undo : Step l (.wait .undo) (.done { l with word := l.word - 1 } .passed)
  | waitLocate {p : Locate} {b : Move Latch Locate Nat} (h : p.Step l b) :
      Step l (.wait (.locate p)) (b.embed id (fun p => .wait (.locate p))
        fun l a => .go l (.wait (.sleep a .subtract)))
  | sleep {a : Nat} {s : Semaphore} {p : Semaphore.Wait} {b : Move Semaphore Semaphore.Wait Unit}
      (hs : l.semaphore? a = some s) (h : b ∈ p.moves s) :
      Step l (.wait (.sleep a p)) (b.embed (fun s => l.setSemaphore a (some s))
        (fun p => .wait (.sleep a p)) fun s _ => .go (l.setSemaphore a (some s)) (.wait .leave))
  | leave (h : l.count.toInt ≤ 0) :
      Step l (.wait .leave) (.done { l with word := l.word - 1 } .passed)
  | alarm (h : 0 < l.count.toInt) :
      Step l (.wait .leave) (.done { l with word := l.word - 1 } (.alarmed l.count))

section Steps

variable {l : Latch} {a : Move Latch Point Reply}

theorem judge_step {p : Post} {k : Int32} (hp : p.looking = some k) :
    Step l (.post p) ((Post.judge l k l.word).embed id .post fun l b => .done l (.posted b)) := by
  rw [Post.judge]
  split
  · rename_i h
    exact .inert hp (by simpa [Int32.le_iff_toInt_le] using h)
  · rename_i h
    exact .see hp (by simpa [Int32.le_iff_toInt_le] using h)

theorem Post.step {p : Post} (ha : a ∈ Point.moves l (.post p)) : Step l (.post p) a := by
  obtain ⟨b, hb, rfl⟩ := List.mem_map.1 ha
  cases p with
  | look k =>
    obtain rfl := List.mem_singleton.1 hb
    exact judge_step rfl
  | swap k seen =>
    simp only [Post.moves] at hb
    split at hb
    · rename_i hs
      subst hs
      rcases List.mem_cons.1 hb with rfl | hb
      · rw [Post.proceed]
        split
        · rename_i h
          exact .count rfl (.inl (by simpa [Int32.lt_iff_toInt_lt] using h))
        · rename_i h
          split
          · rename_i hw
            exact .count rfl (.inr (by simpa using congrArg UInt32.toNat hw))
          · rename_i hw
            exact .release rfl (by simpa [Int32.lt_iff_toInt_lt] using h)
              fun he => hw (UInt32.toNat_inj.1 he)
      · obtain rfl := List.mem_singleton.1 hb
        exact judge_step rfl
    · obtain rfl := List.mem_singleton.1 hb
      exact judge_step rfl
  | locate w p =>
    obtain ⟨d, hd, rfl⟩ := List.mem_map.1 hb
    have := Step.postLocate (w := w) (Locate.step hd)
    cases d <;> exact this
  | wake x p =>
    simp only [Post.moves] at hb
    split at hb
    · simp at hb
    · rename_i s hs
      obtain ⟨d, hd, rfl⟩ := List.mem_map.1 hb
      have := Step.wake hs hd
      cases d <;> exact this

theorem Wait.step {p : Wait} (ha : a ∈ Point.moves l (.wait p)) : Step l (.wait p) a := by
  obtain ⟨b, hb, rfl⟩ := List.mem_map.1 ha
  cases p with
  | peek =>
    simp only [Wait.moves] at hb
    split at hb <;> rename_i h <;> obtain rfl := List.mem_singleton.1 hb
    · exact .pass (by simpa [Int32.le_iff_toInt_le] using h)
    · exact .enter
  | register =>
    simp only [Wait.moves] at hb
    split at hb <;> rename_i h <;> obtain rfl := List.mem_singleton.1 hb
    · exact .late (by simpa [Int32.le_iff_toInt_le] using h)
    · exact .join (by simpa [Int32.le_iff_toInt_le] using h)
  | undo =>
    obtain rfl := List.mem_singleton.1 hb
    exact .undo
  | locate p =>
    obtain ⟨d, hd, rfl⟩ := List.mem_map.1 hb
    have := Step.waitLocate (Locate.step hd)
    cases d <;> exact this
  | sleep x p =>
    simp only [Wait.moves] at hb
    split at hb
    · simp at hb
    · rename_i s hs
      obtain ⟨d, hd, rfl⟩ := List.mem_map.1 hb
      have := Step.sleep hs hd
      cases d <;> exact this
  | leave =>
    obtain rfl := List.mem_singleton.1 hb
    split <;> rename_i h
    · exact .leave (by simpa [Int32.le_iff_toInt_le] using h)
    · exact .alarm (by simpa [Int32.le_iff_toInt_le] using h)

theorem step_of_moves {p : Point} (ha : a ∈ p.moves l) : Step l p a := by
  cases p with
  | offer k =>
    simp only [Point.moves] at ha
    split at ha <;> rename_i h <;> obtain rfl := List.mem_singleton.1 ha
    · exact .offer (by simpa [Int32.lt_iff_toInt_lt] using h)
    · exact .refuse
  | post p => exact Post.step ha
  | wait p => exact Wait.step ha

variable {n : Nat} {m : Role → Nat} {i : Nat} {c : Call} {p : Point}

theorem Balanced.count_eq (h : Balanced n l m) : l.count.toInt = n := h.word.remaining

theorem Balanced.reword {x y : Role → Nat} {word : Int64} {k : Nat} (hb : Balanced n l (x + m))
    (hword : Packs word k (inside (y + m))) (hcounted : Counted k l.main (y + m))
    (hown : ∀ b, y (.own b) = x (.own b)) : Balanced k { l with word } (y + m) := by
  refine ⟨hword, hcounted, ?_, hb.owned.fresh⟩
  intro b
  have := hb.owned.owners b
  rw [Pi.add_apply, ← hown b] at this
  exact this

theorem Balanced.setMain {x y : Role → Nat} {b : Nat} {s : Semaphore} (hb : Balanced n l (x + m))
    (hs : l.shared = some b) (hin : inside (y + m) = inside (x + m)) (hcounted : Counted n s (y + m))
    (hown : ∀ b, y (.own b) = x (.own b)) :
    Balanced n (l.setSemaphore b (some s)) (y + m) := by
  obtain ⟨howned, hmain⟩ := hb.owned.setMain hs s
  refine ⟨hb.word.congr rfl hin.symm, hmain.symm ▸ hcounted, ?_, howned.fresh⟩
  intro b
  have := howned.owners b
  rw [Pi.add_apply, ← hown b] at this
  exact this

structure Kept (n : Nat) (l : Latch) (c : Call) (m : Role → Nat) (a : Move Latch Point Reply) :
    Prop where
  balanced : Balanced n (a.land c).1 (shares (a.land c).2 + m)
  knows : Knows (a.land c).1 (a.land c).2
  shared : ∀ b, l.shared = some b → (a.land c).1.shared = some b

theorem Balanced.sleep {b : Nat} {s : Semaphore} {q : Semaphore.Wait}
    {d : Move Semaphore Semaphore.Wait Unit} (hc : c = .wait) (hl : l.shared = some b)
    (hb : Balanced n l (shares (.running c (.wait (.sleep b q))) + m))
    (hs : l.semaphore? b = some s) (hd : d ∈ q.moves s) :
    Kept n l c m (d.embed (fun s => l.setSemaphore b (some s)) (fun p => .wait (.sleep b p))
      fun s _ => .go (l.setSemaphore b (some s)) (.wait .leave)) := by
  obtain rfl : s = l.main := Option.some.inj (hs.symm.trans (hb.owned.main_eq hl))
  obtain ⟨hroom, honce, hshut, hopened, hwaiting⟩ := hb.counted
  have hfits : Fits (l.main.count.toInt + q.adds) := by
    cases q <;> constructor <;>
      simp only [Pi.add_apply, shares, Wait.roles, inside, Semaphore.Wait.adds] at * <;> omega
  cases Semaphore.Wait.step hd hfits with
  | pass h hcount hp =>
    refine ⟨hb.setMain hl ?_ ⟨?_, ?_, ?_, ?_, ?_⟩ fun _ => rfl, hc, fun _ => id⟩ <;>
      simp only [Pi.add_apply, shares, Wait.roles, inside, Move.embed, Move.land] at * <;> omega
  | sink h hcount hp =>
    refine ⟨hb.setMain hl ?_ ⟨?_, ?_, ?_, ?_, ?_⟩ fun _ => rfl, ⟨hc, hl⟩, fun _ => id⟩ <;>
      simp only [Pi.add_apply, shares, Wait.roles, inside, Move.embed, Move.land] at * <;> omega
  | acquire hcount hp =>
    replace hcount := congrArg Int64.toInt hcount
    refine ⟨hb.setMain hl ?_ ⟨?_, ?_, ?_, ?_, ?_⟩ fun _ => rfl, hc, fun _ => id⟩ <;>
      simp only [Pi.add_apply, shares, Wait.roles, inside, Move.embed, Move.land] at * <;> omega

theorem Balanced.wake {b : Nat} {s : Semaphore} {q : Semaphore.Post}
    {d : Move Semaphore Semaphore.Post Unit} (hc : ∃ k, c = .post k) (hl : l.shared = some b)
    (hb : Balanced n l (shares (.running c (.post (.wake b q))) + m))
    (hs : l.semaphore? b = some s) (hd : d ∈ q.moves s) :
    Kept n l c m (d.embed (fun s => l.setSemaphore b (some s)) (fun p => .post (.wake b p))
      fun s _ => .done (l.setSemaphore b (some s)) (.posted true)) := by
  obtain rfl : s = l.main := Option.some.inj (hs.symm.trans (hb.owned.main_eq hl))
  obtain ⟨hroom, honce, hshut, hopened, hwaiting⟩ := hb.counted
  have hfits : Fits (l.main.count.toInt + q.adds) := by
    cases q <;> constructor <;>
      simp only [Pi.add_apply, shares, Post.roles, inside, Semaphore.Post.adds] at * <;> omega
  cases Semaphore.Post.step hd hfits with
  | add h hcount hp =>
    refine ⟨hb.setMain hl ?_ ⟨?_, ?_, ?_, ?_, ?_⟩ fun _ => rfl, hc, fun _ => id⟩ <;>
      simp only [Pi.add_apply, shares, Post.roles, inside, Move.embed, Move.land] at * <;> omega
  | owe h hcount hp =>
    refine ⟨hb.setMain hl ?_ ⟨?_, ?_, ?_, ?_, ?_⟩ fun _ => rfl, ⟨hc, hl⟩, fun _ => id⟩ <;>
      simp only [Pi.add_apply, shares, Post.roles, inside, Move.embed, Move.land] at * <;> omega
  | release hcount hp =>
    replace hcount := congrArg Int64.toInt hcount
    refine ⟨hb.setMain hl ?_ ⟨?_, ?_, ?_, ?_, ?_⟩ fun _ => rfl, hc, fun _ => id⟩ <;>
      simp only [Pi.add_apply, shares, Post.roles, inside, Move.embed, Move.land] at * <;> omega

theorem inside_congr {x y : Role → Nat} (h : ∀ r, r.isOwn = false → y r = x r) :
    inside y = inside x := by
  rw [inside, inside, h .undoing rfl, h .bound rfl, h .acquiring rfl, h .leaving rfl]

theorem Counted.congr {x y : Role → Nat} {s : Semaphore} (hc : Counted n s x)
    (h : ∀ r, r.isOwn = false → y r = x r) : Counted n s y where
  room := by
    rw [h .idle rfl, inside_congr h]
    exact hc.room
  once := by
    rw [h .opening rfl]
    exact hc.once
  shut := by
    rw [h .undoing rfl, h .leaving rfl, h .opening rfl, h .added rfl, h .owed rfl, h .acquiring rfl]
    exact hc.shut
  opened := by
    rw [h .added rfl, h .bound rfl]
    exact hc.opened
  waiting := by
    rw [h .acquiring rfl, h .owed rfl]
    exact hc.waiting

theorem Balanced.relocate {x y : Role → Nat} {t : Latch} (hb : Balanced n l (x + m))
    (hmain : t.main = l.main) (hword : t.word = l.word)
    (howned : Owned t fun b => (y + m) (.own b)) (h : ∀ r, r.isOwn = false → y r = x r) :
    Balanced n t (y + m) := by
  have hr (r) (hr : r.isOwn = false) : (y + m) r = (x + m) r := by
    rw [Pi.add_apply, Pi.add_apply, h r hr]
  exact ⟨hword ▸ hb.word.congr rfl (inside_congr hr).symm, hmain ▸ hb.counted.congr hr, howned⟩

theorem Balanced.locate_wait {q : Locate} {d : Move Latch Locate Nat} (hc : c = .wait)
    (hb : Balanced n l (shares (.running c (.wait (.locate q))) + m)) (hd : q.Step l d) :
    Kept n l c m (d.embed id (fun p => .wait (.locate p))
      fun l a => .go l (.wait (.sleep a .subtract))) := by
  obtain ⟨howned, hmain, hword, hshared, hdone⟩ := hd.owned (fun b => m (.own b)) hb.owned
  cases d with
  | go t q' =>
    refine ⟨hb.relocate hmain hword howned fun r hr => ?_, hc, hshared⟩
    cases r <;> first | rfl | cases hr
  | done t b =>
    refine ⟨hb.relocate hmain hword howned fun r hr => ?_, ⟨hc, hdone⟩, hshared⟩
    cases r <;> first | rfl | cases hr

theorem Balanced.locate_post {w : UInt32} {q : Locate} {d : Move Latch Locate Nat}
    (hc : ∃ k, c = .post k) (hb : Balanced n l (shares (.running c (.post (.locate w q))) + m))
    (hd : q.Step l d) :
    Kept n l c m (d.embed id (fun p => .post (.locate w p))
      fun l a => .go l (.post (.wake a (.add w.toNat)))) := by
  obtain ⟨howned, hmain, hword, hshared, hdone⟩ := hd.owned (fun b => m (.own b)) hb.owned
  cases d with
  | go t q' =>
    refine ⟨hb.relocate hmain hword howned fun r hr => ?_, hc, hshared⟩
    cases r <;> first | rfl | cases hr
  | done t b =>
    refine ⟨hb.relocate hmain hword howned fun r hr => ?_, ⟨hc, hdone⟩, hshared⟩
    cases r <;> first | rfl | cases hr

theorem Balanced.depart {w : Wait} (hw : w = .undo ∨ w = .leave) (hc : c = .wait)
    (hb : Balanced n l (shares (.running c (.wait w)) + m)) :
    Kept n l c m (.done { l with word := l.word - 1 } .passed) := by
  have hout : Packs (l.word - 1) n (inside (shares (.finished c .passed) + m)) := by
    refine (hb.word.congr rfl ?_).unregister
    rcases hw with rfl | rfl <;> simp only [Pi.add_apply, shares, Wait.roles, inside] <;> omega
  obtain ⟨hroom, honce, hshut, hopened, hwaiting⟩ := hb.counted
  rcases hw with rfl | rfl <;>
    refine ⟨hb.reword hout ⟨?_, ?_, ?_, ?_, ?_⟩ fun _ => rfl, ⟨hc, hout.remaining.trans ?_⟩,
      fun _ => id⟩ <;>
    simp only [Move.land, Pi.add_apply, shares, Wait.roles, inside] at * <;> omega

theorem Step.kept_wait {w : Wait} (h : Step l (.wait w) a) (hk : Knows l (.running c (.wait w)))
    (hb : Balanced n l (shares (.running c (.wait w)) + m)) : Kept n l c m a := by
  obtain ⟨hroom, honce, hshut, hopened, hwaiting⟩ := hb.counted
  have hcount := hb.count_eq
  have hw := hb.word
  cases h with
  | pass h =>
    refine ⟨hb.reword (hw.congr rfl ?_) ⟨?_, ?_, ?_, ?_, ?_⟩ fun _ => rfl, ⟨hk, ?_⟩, fun _ => id⟩
    all_goals simp only [Move.land, Pi.add_apply, shares, Wait.roles, inside] at * <;> omega
  | enter =>
    refine ⟨hb.reword (hw.congr rfl ?_) ⟨?_, ?_, ?_, ?_, ?_⟩ fun _ => rfl, hk, fun _ => id⟩
    all_goals simp only [Move.land, Pi.add_apply, shares, Wait.roles, inside] at * <;> omega
  | late h =>
    refine ⟨hb.reword ((hw.register ?_).congr rfl ?_) ⟨?_, ?_, ?_, ?_, ?_⟩ fun _ => rfl, hk,
      fun _ => id⟩
    all_goals simp only [Move.land, Pi.add_apply, shares, Wait.roles, inside] at *; omega
  | join h =>
    refine ⟨hb.reword ((hw.register ?_).congr rfl ?_) ⟨?_, ?_, ?_, ?_, ?_⟩ fun _ => rfl, hk,
      fun _ => id⟩
    all_goals
      simp only [Move.land, Pi.add_apply, shares, Wait.roles, Locate.roles, inside] at *; omega
  | undo => exact hb.depart (.inl rfl) hk
  | leave h => exact hb.depart (.inr rfl) hk
  | alarm h =>
    simp only [Pi.add_apply, shares, Wait.roles] at hshut
    omega
  | waitLocate h => exact hb.locate_wait hk h
  | sleep hs h => exact hb.sleep hk.1 hk.2 hs h

theorem Post.shares_of_looking {q : Post} {k : Int32} (h : q.looking = some k) :
    shares (.running c (.post q)) = 0 := by
  cases q <;> simp only [looking, reduceCtorEq] at h <;> rfl

theorem Post.call_of_looking {q : Post} {k : Int32} (h : q.looking = some k)
    (hk : Knows l (.running c (.post q))) : c = .post k ∧ 0 < k.toInt := by
  cases q with
  | look => exact Option.some.inj h ▸ hk
  | swap => exact Option.some.inj h ▸ ⟨hk.1, hk.2.1⟩
  | _ => cases h

theorem amount_of_word {q : Post} (h : a.state.word = l.word) :
    amount ⟨i, c, l, .post q, a⟩ = 0 := by
  cases q with
  | swap => exact if_pos h
  | _ => rfl

theorem Balanced.amount_swap {k : Int32} {t : Latch} (hb : Balanced n l m)
    (ht : t = { l with word := countDown l.word k }) (hk : 0 < k.toInt)
    (hr : 0 < (remaining l.word).toInt) (ha : a.state = t) :
    amount ⟨i, c, l, .post (.swap k l.word), a⟩ = k.toInt.toNat := by
  subst ht
  refine if_neg fun he => ?_
  rw [ha] at he
  have := ((hb.word.countDown hk).eq_iff hb.word).1 he
  have := hb.word.remaining
  omega

theorem Step.kept_post {q : Post} (h : Step l (.post q) a) (hk : Knows l (.running c (.post q)))
    (hb : Balanced n l (shares (.running c (.post q)) + m)) :
    Kept (n - amount ⟨i, c, l, .post q, a⟩) l c m a := by
  cases h with
  | @inert q k hp =>
    obtain ⟨rfl, -⟩ := Post.call_of_looking hp hk
    rw [Post.shares_of_looking hp] at hb
    have h0 : amount ⟨i, .post k, l, .post q, .done l (.posted false)⟩ = 0 := amount_of_word rfl
    rw [h0]
    exact ⟨hb, ⟨_, rfl⟩, fun _ => id⟩
  | @see q k hp h =>
    obtain ⟨rfl, hpos⟩ := Post.call_of_looking hp hk
    rw [Post.shares_of_looking hp] at hb
    have h0 : amount ⟨i, .post k, l, .post q, .go l (.post (.swap k l.word))⟩ = 0 :=
      amount_of_word rfl
    rw [h0]
    exact ⟨hb, ⟨rfl, hpos, h⟩, fun _ => id⟩
  | @count k t ht h =>
    obtain ⟨rfl, hpos, hr⟩ := hk
    rw [hb.amount_swap ht hpos hr rfl]
    have hw := hb.word.countDown hpos
    have hcounter := hb.word.remaining
    have hcount : t.count.toInt = (n - k.toInt.toNat : Nat) := ht ▸ hw.remaining
    obtain ⟨hroom, honce, hshut, hopened, hwaiting⟩ := hb.counted
    subst ht
    have hin : (Latch.waiters { l with word := countDown l.word k }).toNat = _ := hw.registered
    refine ⟨hb.reword hw ⟨hroom, honce, ?_, ?_, hwaiting⟩ fun _ => rfl, ⟨_, rfl⟩, fun _ => id⟩
    all_goals
      simp only [Move.land, Pi.add_apply, shares, Post.roles, inside] at *; omega
  | @release k t ht h hwaiters =>
    obtain ⟨rfl, hpos, hr⟩ := hk
    rw [hb.amount_swap ht hpos hr rfl]
    have hw := hb.word.countDown hpos
    have hcounter := hb.word.remaining
    have hcount : t.count.toInt = (n - k.toInt.toNat : Nat) := ht ▸ hw.remaining
    obtain ⟨hroom, honce, hshut, hopened, hwaiting⟩ := hb.counted
    subst ht
    have hin : (Latch.waiters { l with word := countDown l.word k }).toNat = _ := hw.registered
    refine ⟨hb.reword (hw.congr rfl ?_) ⟨?_, ?_, ?_, ?_, ?_⟩ fun _ => rfl, ⟨_, rfl⟩, fun _ => id⟩
    all_goals
      simp only [Move.land, Pi.add_apply, shares, Post.roles, Locate.roles, inside] at * <;> omega
  | @postLocate w q d h =>
    have hword : amount ⟨i, c, l, .post (.locate w q), d.embed id (fun p => .post (.locate w p))
        fun l a => .go l (.post (.wake a (.add w.toNat)))⟩ = 0 := rfl
    rw [hword]
    exact hb.locate_post hk h
  | @wake b s q d hs h =>
    have hword : amount ⟨i, c, l, .post (.wake b q), d.embed
        (fun s => l.setSemaphore b (some s)) (fun p => .post (.wake b p))
        fun s _ => .done (l.setSemaphore b (some s)) (.posted true)⟩ = 0 := rfl
    rw [hword]
    exact hb.wake hk.1 hk.2 hs h

theorem Step.kept (h : Step l p a) (hk : Knows l (.running c p))
    (hb : Balanced n l (shares (.running c p) + m)) :
    Kept (n - amount ⟨i, c, l, p, a⟩) l c m a := by
  cases p with
  | offer k =>
    cases h with
    | refuse => exact ⟨hb, ⟨k, hk⟩, fun _ => id⟩
    | offer hpos => exact ⟨hb, ⟨hk, hpos⟩, fun _ => id⟩
  | post q => exact h.kept_post hk hb
  | wait w => exact h.kept_wait hk hb

theorem Step.opens {q : Post} {k : Int32} (h : Step l (.post q) a) (hc : c = .post k)
    (hk : Knows l (.running c (.post q))) (hb : Balanced n l (shares (.running c (.post q)) + m))
    (hn : n ≤ k.toInt.toNat) (hq : q.looking.isSome) :
    n - amount ⟨i, c, l, .post q, a⟩ = 0 ∨ ∃ t q', a = .go t (.post q') ∧ q'.looking.isSome := by
  cases h with
  | inert hp h =>
    have := hb.word.remaining
    omega
  | see hp h => exact .inr ⟨_, _, rfl, rfl⟩
  | count ht h =>
    obtain ⟨rfl, hpos, hr⟩ := hk
    cases hc
    rw [hb.amount_swap ht hpos hr rfl]
    omega
  | release ht h hw =>
    obtain ⟨rfl, hpos, hr⟩ := hk
    cases hc
    rw [hb.amount_swap ht hpos hr rfl]
    omega
  | postLocate h => cases hq
  | wake hs h => cases hq

theorem Balanced.forget {b : Bool} (hb : Balanced n l (shares (.finished c (.posted b)) + m)) :
    Balanced n l m := by
  have hr (r) (h : r ≠ .opening) : (shares (.finished c (.posted b)) + m) r = m r := by
    cases b <;> cases r <;> first | exact Nat.zero_add _ | exact absurd rfl h
  have hopening : m .opening ≤ (shares (.finished c (.posted b)) + m) .opening :=
    Nat.le_add_left _ _
  have hin : inside (shares (.finished c (.posted b)) + m) = inside m := by
    simp only [inside, ne_eq, reduceCtorEq, not_false_eq_true, hr]
  obtain ⟨hroom, honce, hshut, hopened, hwaiting⟩ := hb.counted
  simp only [hin, ne_eq, reduceCtorEq, not_false_eq_true, hr] at hroom hshut hopened hwaiting
  refine ⟨hb.word.congr rfl hin, ⟨hroom, by omega, fun h => ?_, hopened, hwaiting⟩, ?_⟩
  · obtain ⟨hundoing, hleaving, h0, hrest⟩ := hshut h
    exact ⟨hundoing, hleaving, by omega, hrest⟩
  · refine ⟨fun a => ?_, hb.owned.fresh⟩
    rw [← hr (.own a) (by simp)]
    exact hb.owned.owners a

theorem balanced_start {k : Int32} (hk : k.toInt = n) :
    Balanced n ⟨counts k, none, []⟩ 0 := by
  have hpacks := packs_counts (n := k) (by omega)
  rw [hk, Int.toNat_natCast] at hpacks
  refine ⟨hpacks, ⟨?_, ?_, fun _ => ?_, fun _ => ?_, ?_⟩, ?_, ?_⟩
  all_goals simp [inside, main, semaphore?]

theorem Balanced.enter (hb : Balanced n l m) (hroom : m .idle + inside m + 1 < 2 ^ 32) :
    Balanced n l (Wait.roles .peek + m) := by
  have h0 : Balanced n l ((0 : Role → Nat) + m) := by rwa [zero_add]
  obtain ⟨-, honce, hshut, hopened, hwaiting⟩ := hb.counted
  refine h0.reword (hb.word.congr rfl ?_) ⟨?_, ?_, ?_, ?_, ?_⟩ fun _ => rfl <;>
    simp only [Pi.add_apply, Wait.roles, inside] at * <;> omega

end Steps

end WorkStealing.Latch
