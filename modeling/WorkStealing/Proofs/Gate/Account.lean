import WorkStealing.Gate.Script
import WorkStealing.Proofs.Crew.Alone
import WorkStealing.Proofs.Gate.Balance

namespace WorkStealing.Gate

variable {α : Type}

abbrev Caller (α : Type) := Thread (Call α) (Point α) (Reply α)

abbrev Callers (α : Type) := Crew Gate (Call α) (Point α) (Reply α)

section Weight

def Sleep.weight : Sleep (Recheck α) (α × Nat) → Nat
  | .declare => 5
  | .recheck _ => 4
  | .wait .subtract => 3
  | .wait .acquire => 2
  | .wake | .retract _ => 1

def Notify.weight : Notify → Nat
  | .look _ => 3
  | .post _ (.add _) => 2
  | .post _ (.release _) => 1

def weight : Caller α → Nat
  | .running _ (.notify n) => n.weight
  | .running _ (.sleep _ p) => p.weight
  | .finished .. => 0

variable {g : Gate}

theorem Notify.weight_lt {n : Notify} {a : Move Gate Notify Nat} (ha : a ∈ n.moves g) :
    a.share weight < n.weight := by
  cases n with
  | look limit =>
    simp only [moves] at ha
    split at ha <;> obtain rfl := List.mem_singleton.1 ha <;> simp [Move.share, weight]
  | post n p =>
    obtain ⟨b, hb, rfl⟩ := List.mem_map.1 ha
    cases b with
    | go t q =>
      obtain ⟨i, l, rfl, rfl⟩ := Semaphore.Post.eq_of_go hb
      simp [Move.embed, Move.share, weight]
    | done t u => cases p <;> simp [Move.embed, Move.share, weight]

theorem Sleep.weight_lt {r : Recheck α} {p : Sleep (Recheck α) (α × Nat)}
    {a : Move Gate (Sleep (Recheck α) (α × Nat)) (Option (α × Nat))}
    (ha : a ∈ p.moves ⟨fun _ => r, Recheck.moves⟩ g) : a.share weight < p.weight := by
  cases p with
  | declare | retract | wake =>
    obtain rfl := List.mem_singleton.1 ha
    simp [Move.share, weight]
  | recheck k =>
    cases k <;> obtain rfl := List.mem_singleton.1 ha <;> simp [Move.embed, Move.share, weight]
  | wait w =>
    obtain ⟨b, hb, rfl⟩ := List.mem_map.1 ha
    cases b with
    | go t q =>
      obtain ⟨rfl, rfl⟩ := Semaphore.Wait.eq_of_go hb
      simp [Move.embed, Move.share, weight]
    | done t u => cases w <;> simp [Move.embed, Move.share, weight]

theorem weight_land_lt (g : Gate) (c : Call α) (p : Point α) (a : Move Gate (Point α) (Reply α))
    (ha : a ∈ (calls α).moves g p) : weight (a.land c).2 < weight (.running c p) := by
  cases p with
  | notify n =>
    obtain ⟨b, hb, rfl⟩ := List.mem_map.1 ha
    have hlt := Notify.weight_lt hb
    cases b <;> exact hlt
  | sleep r p =>
    obtain ⟨b, hb, rfl⟩ := List.mem_map.1 ha
    have hlt := Sleep.weight_lt hb
    rcases b with ⟨t, q⟩ | ⟨t, _ | f⟩ <;> exact hlt

end Weight

def Point.adds : Point α → Int
  | .notify n => n.adds
  | .sleep _ (.wait w) => w.adds
  | .sleep _ _ => 0

def Knows : Caller α → Prop
  | .running (.sleep .miss) (.sleep .miss p) => p ∈ [.declare, .recheck .miss, .wait .subtract,
      .wait .acquire, .wake]
  | .running (.notify _) (.notify (.post _ _)) => True
  | .running _ _ => False
  | .finished (.sleep .miss) a => a = .woken
  | .finished _ _ => True

inductive Step (g : Gate) : Point α → Move Gate (Point α) (Reply α) → Prop where
  | declare : Step g (.sleep .miss .declare) (.go g.enter (.sleep .miss (.recheck .miss)))
  | miss : Step g (.sleep .miss (.recheck .miss)) (.go g (.sleep .miss (.wait .subtract)))
  | pass {t : Semaphore} (h : 0 < g.semaphore.count.toInt)
      (hc : t.count.toInt = g.semaphore.count.toInt - 1) (hp : t.permits = g.semaphore.permits) :
      Step g (.sleep .miss (.wait .subtract)) (.go (g.setSemaphore t) (.sleep .miss .wake))
  | sink {t : Semaphore} (h : g.semaphore.count.toInt ≤ 0)
      (hc : t.count.toInt = g.semaphore.count.toInt - 1) (hp : t.permits = g.semaphore.permits) :
      Step g (.sleep .miss (.wait .subtract))
        (.go (g.setSemaphore t) (.sleep .miss (.wait .acquire)))
  | acquire {t : Semaphore} (hc : t.count = g.semaphore.count)
      (hp : g.semaphore.permits = t.permits + 1) :
      Step g (.sleep .miss (.wait .acquire)) (.go (g.setSemaphore t) (.sleep .miss .wake))
  | wake : Step g (.sleep .miss .wake) (.done g.leave .woken)
  | add {answer n : Nat} {t : Semaphore} (h : 0 ≤ g.semaphore.count.toInt)
      (hc : t.count.toInt = g.semaphore.count.toInt + n) (hp : t.permits = g.semaphore.permits) :
      Step g (.notify (.post answer (.add n))) (.done (g.setSemaphore t) (.posted answer))
  | owe {answer n : Nat} {t : Semaphore} (h : g.semaphore.count.toInt < 0)
      (hc : t.count.toInt = g.semaphore.count.toInt + n) (hp : t.permits = g.semaphore.permits) :
      Step g (.notify (.post answer (.add n))) (.go (g.setSemaphore t)
        (.notify (.post answer (.release (min g.semaphore.count.toInt.natAbs n)))))
  | release {answer n : Nat} {t : Semaphore} (hc : t.count = g.semaphore.count)
      (hp : t.permits = g.semaphore.permits + n) :
      Step g (.notify (.post answer (.release n))) (.done (g.setSemaphore t) (.posted answer))

/-- What the callers are counted for: as sleepers, in search of a permit, for permits that a post
has yet to hand out, for those it has yet to add to the count, and as waits that have yet to be taken
off it. -/
inductive Count where
  | declared
  | acquiring
  | owed
  | coming
  | going
  deriving DecidableEq

def Count.of : Count → Caller α → Nat
  | declared, .running _ (.sleep _ .declare) => 0
  | declared, .running _ (.sleep _ _) => 1
  | acquiring, .running _ (.sleep _ (.wait .acquire)) => 1
  | owed, .running _ (.notify (.post _ (.release n))) => n
  | coming, .running _ (.notify (.post _ (.add n))) => n
  | going, .running _ (.sleep _ .declare) | going, .running _ (.sleep _ (.recheck _)) => 1
  | going, .running _ (.sleep _ (.wait .subtract)) => 1
  | _, _ => 0

def shares (t : Caller α) (x : Count) : Nat := x.of t

def tally (k : Callers α) (x : Count) : Nat := Crew.total x.of k

/-- The count is to come to `z`. Whichever way it goes there, it does not wrap. -/
structure Balanced (z : Int) (g : Gate) (m : Count → Nat) : Prop where
  sleepers : g.sleepers = m .declared
  waiting : m .acquiring = g.semaphore.permits + m .owed + (-g.semaphore.count.toInt).toNat
  count : g.semaphore.count.toInt = z - m .coming + m .going
  low : -2 ^ 63 ≤ z - m .coming
  high : z + m .going < 2 ^ 63

section Steps

variable {g : Gate} {c : Call α} {p : Point α} {a : Move Gate (Point α) (Reply α)} {z : Int}
  {m : Count → Nat}

theorem Knows.cases_sleep {r : Recheck α} {p : Sleep (Recheck α) (α × Nat)}
    (h : Knows (.running c (.sleep r p) : Caller α)) : c = .sleep .miss ∧ r = .miss ∧ (p = .declare ∨
      p = .recheck .miss ∨ p = .wait .subtract ∨ p = .wait .acquire ∨ p = .wake) := by
  rcases c with n | v | _ <;> rcases r with v | _ <;> first | exact h.elim | skip
  exact ⟨rfl, rfl, by simpa [Knows] using h⟩

theorem Knows.cases_notify {n : Notify} (h : Knows (.running c (.notify n) : Caller α)) :
    ∃ limit answer p, c = .notify limit ∧ n = .post answer p := by
  rcases c with l | r
  · cases n with
    | look => exact h.elim
    | post answer p => exact ⟨l, answer, p, rfl, rfl⟩
  · cases r <;> exact h.elim

theorem step_of_moves (ha : a ∈ p.moves g) (hk : Knows (.running c p))
    (hf : Fits (g.semaphore.count.toInt + p.adds)) : Step g p a := by
  cases p with
  | notify n =>
    obtain ⟨limit, answer, p, rfl, rfl⟩ := hk.cases_notify
    obtain ⟨b, hb, rfl⟩ := List.mem_map.1 ha
    obtain ⟨d, hd, rfl⟩ := List.mem_map.1 hb
    cases Semaphore.Post.step hd hf with
    | add h hc hp => exact .add h hc hp
    | owe h hc hp => exact .owe h hc hp
    | release hc hp => exact .release hc hp
  | sleep r p =>
    obtain ⟨rfl, rfl, hp⟩ := hk.cases_sleep
    obtain ⟨b, hb, rfl⟩ := List.mem_map.1 ha
    rcases hp with rfl | rfl | rfl | rfl | rfl
    · exact List.mem_singleton.1 hb ▸ .declare
    · exact List.mem_singleton.1 hb ▸ .miss
    · obtain ⟨d, hd, rfl⟩ := List.mem_map.1 hb
      cases Semaphore.Wait.step hd hf with
      | pass h hc hp => exact .pass h hc hp
      | sink h hc hp => exact .sink h hc hp
    · obtain ⟨d, hd, rfl⟩ := List.mem_map.1 hb
      cases Semaphore.Wait.step hd hf with
      | acquire hc hp => exact .acquire hc hp
    · exact List.mem_singleton.1 hb ▸ .wake

theorem Step.knows (h : Step g p a) (hk : Knows (.running c p)) : Knows (a.land c).2 := by
  cases p with
  | notify n =>
    obtain ⟨limit, answer, p, rfl, rfl⟩ := hk.cases_notify
    cases h <;> trivial
  | sleep r p =>
    obtain ⟨rfl, rfl, -⟩ := hk.cases_sleep
    cases h <;> simp [Move.land, Knows]

theorem Step.balanced (h : Step g p a) (hb : Balanced z g (shares (.running c p) + m)) :
    Balanced z (a.land c).1 (shares (a.land c).2 + m) := by
  obtain ⟨h1, h2, h3, h4, h5⟩ := hb
  cases h <;>
    simp only [Pi.add_apply, shares, Count.of] at h1 h2 h3 h4 h5 <;>
    refine ⟨?_, ?_, ?_, ?_, ?_⟩ <;>
    simp only [Move.land, Pi.add_apply, shares, Count.of, enter, leave, setSemaphore, *] <;> omega

theorem Balanced.fits (hb : Balanced z g (shares (.running c p) + m)) (hk : Knows (.running c p)) :
    Fits (g.semaphore.count.toInt + p.adds) := by
  obtain ⟨-, -, h3, h4, h5⟩ := hb
  simp only [Pi.add_apply, shares] at h3 h4 h5
  cases p with
  | notify n =>
    obtain ⟨limit, answer, p, rfl, rfl⟩ := hk.cases_notify
    cases p <;> simp only [Count.of, Point.adds, Notify.adds, Semaphore.Post.adds] at * <;>
      constructor <;> omega
  | sleep r p =>
    obtain ⟨rfl, rfl, rfl | rfl | rfl | rfl | rfl⟩ := hk.cases_sleep <;>
      simp only [Count.of, Point.adds, Semaphore.Wait.adds] at * <;> constructor <;> omega

end Steps

section Runs

variable {g : Gate} {p : Point α} {z : Int} {first k : Callers α}
  {log : List (Crew.Entry Gate (Call α) (Point α) (Reply α))}

theorem total_shares (k : Callers α) : Crew.total shares k = tally k :=
  funext fun x => Crew.total_apply shares k x

theorem run_balanced (hb : Balanced z first.state (tally first))
    (hk : ∀ t ∈ first.threads, Knows t)
    (h : Crew.Run (calls α) (fun _ _ => False) first log k) :
    Balanced z k.state (tally k) ∧ ∀ t ∈ k.threads, Knows t := by
  rw [← total_shares] at hb ⊢
  have hrun : ∃ _ : Unit, Balanced z k.state (Crew.total shares k) ∧ ∀ t ∈ k.threads, Knows t := by
    refine h.invariant shares (fun _ _ => Balanced z) (fun _ => Knows) (fun _ _ => True)
      (fun _ _ => True) (fun _ _ _ _ => id) ⟨(), hb, hk⟩ (fun _ _ _ => id)
      (fun _ _ _ _ _ _ _ _ => id) (fun _ _ _ _ hc => hc.elim) ?_ trivial
    intro _ _ m _ c s p a ha hb hk _
    have hs := step_of_moves ha hk (hb.fits hk)
    exact ⟨(), trivial, hs.balanced hb, hs.knows hk⟩
  obtain ⟨-, hb, hk⟩ := hrun
  exact ⟨hb, hk⟩

theorem Point.eq_acquire (h : p.moves g = []) :
    (∃ r, p = .sleep r (.wait .acquire)) ∧ g.semaphore.permits = 0 := by
  cases p with
  | notify n =>
    rw [moves, List.map_eq_nil_iff] at h
    exact absurd h (n.moves_ne_nil g)
  | sleep r p =>
    rw [moves, List.map_eq_nil_iff] at h
    cases p with
    | declare | retract | wake => cases h
    | recheck k => cases k <;> cases h
    | wait w =>
      rw [Sleep.moves, List.map_eq_nil_iff] at h
      obtain ⟨rfl, hp⟩ := Semaphore.Wait.moves_eq_nil h
      exact ⟨⟨r, rfl⟩, hp⟩

theorem moves_acquire (r : Recheck α) (h : g.semaphore.permits = 0) :
    (calls α).moves g (.sleep r (.wait .acquire)) = [] := by
  change List.map _ (List.map _ (Semaphore.Wait.moves g.semaphore .acquire)) = []
  rw [Semaphore.Wait.moves, h]
  rfl

theorem moves_look_none {limit : Nat} (h : min g.sleepers limit = 0) :
    (calls α).moves g (.notify (.look limit)) = [.done g (.posted 0)] := by
  simp only [calls, Point.moves, Notify.moves, h]
  rfl

theorem moves_look_some {limit n : Nat} (h : min g.sleepers limit = n + 1) :
    (calls α).moves g (.notify (.look limit)) =
      [.go g (.notify (.post (n + 1) (.add (n + 1))))] := by
  simp only [calls, Point.moves, Notify.moves, h]
  rfl

end Runs

end WorkStealing.Gate
