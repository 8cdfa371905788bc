import WorkStealing.Proofs.Blocking.Step
import Mathlib.Algebra.BigOperators.Group.Multiset.Basic
import Mathlib.Algebra.BigOperators.Pi
import Mathlib.Algebra.Order.BigOperators.Group.Multiset
import Mathlib.Data.List.Infix

namespace WorkStealing.Blocking

open Queue (Part Staged Stored)
open Role

variable {Q α E D : Type}

abbrev Caller (α E D : Type) := Thread (Call α) (Point α E D) (Reply α)

def producing : Caller α E D → Nat
  | .running (.enqueue _) _ => 1
  | _ => 0

theorem producing_land {c : Call α} {p : Point α E D} (a : Move (Blocking Q) (Point α E D) (Reply α)) :
    producing (a.land c).2 ≤ producing (.running c p : Caller α E D) := by
  cases a with
  | go t p' => cases c <;> exact Nat.le_refl _
  | done t r => exact Nat.zero_le _

def asks : Caller α E D → Nat
  | .running (.enqueue _) _ | .finished (.enqueue _) _ => 1
  | _ => 0

theorem asks_land {c : Call α} {p : Point α E D} (a : Move (Blocking Q) (Point α E D) (Reply α)) :
    asks (a.land c).2 = asks (.running c p : Caller α E D) := by
  cases a <;> cases c <;> rfl

theorem sum_asks_land {c : Call α} {p : Point α E D} (m : Multiset (Caller α E D))
    (a : Move (Blocking Q) (Point α E D) (Reply α)) : (({(a.land c).2} + m).map asks).sum =
      (({.running c p} + m : Multiset (Caller α E D)).map asks).sum := by
  rw [Multiset.singleton_add, Multiset.singleton_add, Multiset.map_cons, Multiset.map_cons,
    Multiset.sum_cons, Multiset.sum_cons, asks_land (p := p)]

def offers (k : Crew (Blocking Q) (Call α) (Point α E D) (Reply α)) : Nat := Crew.total asks k

theorem offers_eq (k : Crew (Blocking Q) (Call α) (Point α E D) (Reply α)) : offers k =
    ((Crew.total (fun t => ({t} : Multiset (Caller α E D))) k).map asks).sum := by
  rw [Crew.total_singleton]
  rfl

def Point.adds : Point α E D → Int
  | .enqueue p => p.adds
  | .dequeue p => p.adds
  | .tryDequeue _ => 0
  | .close p => p.adds

section

variable [Queue Q α E D]

abbrev Log (Q α : Type) {E D : Type} [Queue Q α E D] :=
  List (Crew.Entry (Blocking Q) (Call α) (Point α E D) (Reply α))

def balance (log : Log Q α) : Int := (log.map fun e => e.point.adds).sum

theorem balance_cons (e : Crew.Entry (Blocking Q) (Call α) (Point α E D) (Reply α))
    (log : Log Q α) : balance (e :: log) = balance log + e.point.adds := by
  simp [balance, Int.add_comm]

/-- Neither of the gate's counters has wrapped. -/
structure Exact (log : Log Q α) : Prop where
  fits : ∀ l, l <:+ log → Fits (balance l)
  sleepers : ∀ e ∈ log, e.before.gate.sleepers < UInt64.size

instance (log : Log Q α) : Decidable (Exact log) :=
  decidable_of_iff ((∀ l ∈ log.tails, Fits (balance l)) ∧
      ∀ e ∈ log, e.before.gate.sleepers < UInt64.size)
    ⟨fun h => ⟨fun l hl => h.1 l ((List.mem_tails l log).2 hl), h.2⟩,
      fun h => ⟨fun l hl => h.fits l ((List.mem_tails l log).1 hl), h.sleepers⟩⟩

theorem Exact.suffix {older log : Log Q α} (h : Exact log) (hs : older <:+ log) : Exact older :=
  ⟨fun l hl => h.fits l (hl.trans hs), fun e he => h.sleepers e (hs.subset he)⟩

theorem Exact.tail {e : Crew.Entry (Blocking Q) (Call α) (Point α E D) (Reply α)} {log : Log Q α}
    (h : Exact (e :: log)) : Exact log := h.suffix (List.suffix_cons _ _)

theorem offers_le {spins : Nat} {recent : Log Q α}
    {allowed : Crew (Blocking Q) (Call α) (Point α E D) (Reply α) → Call α → Prop}
    {j k : Crew (Blocking Q) (Call α) (Point α E D) (Reply α)}
    (h : Crew.Run (calls spins) allowed j recent k) : offers j ≤ offers k := by
  induction h with
  | refl => exact Nat.le_refl _
  | start _ c _ ih =>
    refine ih.trans ?_
    rw [offers, offers, Crew.total_start]
    exact Nat.le_add_left _ _
  | move _ _ ih =>
    refine ih.trans (Nat.le_of_eq ?_)
    rw [offers, offers, Crew.total_split, Crew.total_split, ← asks_land]
    rfl

def Missed (e : Crew.Entry (Blocking Q) (Call α) (Point α E D) (Reply α)) : Prop :=
  ∃ t, e.move = .go t (.dequeue (.sleep (.recheck .flag)))

variable [Staged Q α E D]

def Sighted (log : Log Q α) : Prop := ∀ e ∈ log, Missed e → Staged.ready e.before.base = 0

section

variable (Q)

def role : Caller α E D → Role → Nat
  | .running _ (.enqueue p) => p.role
  | .running _ (.dequeue p) => p.role Q
  | .running _ (.tryDequeue _) => 0
  | .running _ (.close p) => p.role
  | .finished _ _ => 0

def part (f : α → Bool) : Caller α E D → Part → Nat
  | .running (.enqueue v) (.enqueue p) => p.part Q f v
  | .running _ (.dequeue p) => p.part Q f
  | .running _ (.tryDequeue p) => p.part Q
  | .running _ _ => 0
  | .finished (.enqueue v) (.pushed r) => left f v r
  | .finished _ (.popped r) => answer f r
  | .finished _ _ => 0

def Knows (n : Nat) (g : Ghost α) : Caller α E D → Prop
  | .running (.enqueue v) (.enqueue p) => p.Knows Q n v g
  | .running .dequeue (.dequeue p) => p.Knows Q g
  | .running .tryDequeue (.tryDequeue p) => p.Knows Q g
  | .running .close (.close p) => p.Knows
  | .running _ _ => False
  | .finished _ _ => True

end

variable {lucid : Prop} {n : Nat} {f : α → Bool} {g₀ g h : Ghost α} {q : Blocking Q} {mr : Role → Nat}
  {mp : Part → Nat} {spins : Nat}

theorem Recheck.Knows.mono {k : Recheck D} (l : g.Le h) (hk : k.Knows Q g) : k.Knows Q h := by
  cases k with
  | first d => exact Staged.pop_mono l hk
  | flag => trivial
  | last d => exact Staged.pop_mono l hk

theorem Knows.mono {t : Caller α E D} (l : g.Le h) (hk : Knows Q n g t) : Knows Q n h t := by
  rcases t with ⟨_ | _ | _ | _, p | p | p | p⟩ | ⟨c, r⟩ <;> try exact hk
  · rcases p with w | e | (limit | ⟨k, x⟩)
    all_goals first | exact Staged.push_mono l hk | exact hk
  · rcases p with ⟨k, d⟩ | _ | d | ⟨_ | k | r | w | _⟩
    all_goals first | exact Staged.pop_mono l hk | exact Recheck.Knows.mono l hk | exact hk
  · rcases p with d | _
    · exact Staged.pop_mono l hk
    · trivial

structure Lands (lucid : Prop) (n : Nat) (f : α → Bool) (g₀ : Ghost α) (adds : Int)
    (alone : Prop) (q : Blocking Q)
    (g : Ghost α) (mr : Role → Nat) (mp : Part → Nat) (x : Blocking Q × Caller α E D)
    (h : Ghost α) : Prop where
  le : g.Le h
  balanced : Balanced lucid n f g₀ x.1 h (role Q x.2 + mr) (part Q f x.2 + mp)
  count : x.1.gate.semaphore.count.toInt = q.gate.semaphore.count.toInt + adds
  clear : alone → g.Clear → h.Clear
  knows : Knows Q n h x.2

theorem Keeps.lands {P R : Type} {o : Pose P R α} {adds : Int} {alone : Prop} {c : Call α}
    {stay : P → Point α E D} {finish : R → Reply α} {a : Move (Blocking Q) P R}
    (hk : Keeps lucid n f g₀ o adds alone q g mr mp a h)
    (hrole : ∀ p, role Q (.running c (stay p)) = o.role p) (hrest : ∀ r, o.rest r = 0)
    (hpart : ∀ p, part Q f (.running c (stay p)) = o.part p)
    (hresult : ∀ r, part Q f (.finished c (finish r) : Caller α E D) = o.result r)
    (hknows : ∀ p, o.Knows h p → Knows Q n h (.running c (stay p))) :
    Lands lucid n f g₀ adds alone q g mr mp
      ((a.embed id stay fun q r => .done q (finish r)).land c) h := by
  obtain ⟨h1, h2, h3, h4, h5⟩ := hk
  cases a with
  | go t p =>
    refine ⟨h1, ?_, h3, h4, hknows p (h5 t p rfl)⟩
    change Balanced lucid n f g₀ t h (role Q (.running c (stay p)) + mr)
      (part Q f (.running c (stay p)) + mp)
    rw [hrole, hpart]
    exact h2
  | done t r =>
    refine ⟨h1, ?_, h3, h4, trivial⟩
    change Balanced lucid n f g₀ t h (0 + mr) (part Q f (.finished c (finish r) : Caller α E D) + mp)
    rw [hresult, ← hrest r]
    exact h2

theorem Point.lands {c : Call α} {p : Point α E D} {a : Move (Blocking Q) (Point α E D) (Reply α)}
    (hb : Balanced lucid n f g₀ q g (role Q (.running c p) + mr) (part Q f (.running c p) + mp))
    (hk : Knows Q n g (.running c p)) (ha : a ∈ p.moves spins q)
    (hwrap : Staged.Wraps Q →
      g₀.values.length + mp .claim + asks (.running c p : Caller α E D) < 2 ^ 63)
    (hs : q.gate.sleepers < UInt64.size) (hf : Fits (q.gate.semaphore.count.toInt + p.adds))
    (hsee : ∀ t, a = .go t (.dequeue (.sleep (.recheck .flag))) →
      lucid → g.Clear ∨ g.ready = 0) :
    ∃ h, Lands lucid n f g₀ p.adds (producing (.running c p : Caller α E D) = 1 → Alone mp) q g mr mp
      (a.land c) h := by
  rcases c with v | _ | _ | _ <;> rcases p with p | p | p | p <;> try exact hk.elim
  · obtain ⟨b, hb', rfl⟩ := List.mem_map.1 ha
    obtain ⟨h, hk'⟩ := Enqueue.keeps hb hk hb' hwrap hf
    exact ⟨h, (hk'.weaken fun halone => halone rfl).lands (fun _ => rfl) (fun _ => rfl)
      (fun _ => rfl) (fun _ => rfl) fun _ hk => hk⟩
  · obtain ⟨b, hb', rfl⟩ := List.mem_map.1 ha
    have hsee' : ∀ t, b = .go t (.sleep (.recheck .flag)) → lucid → g.Clear ∨ g.ready = 0 := by
      rintro t rfl
      exact hsee t rfl
    obtain ⟨h, hk'⟩ := Dequeue.keeps hb hk hb' hsee' hf
    exact ⟨h, (hk'.weaken fun _ => trivial).lands (fun _ => rfl) (fun _ => rfl) (fun _ => rfl)
      (fun _ => rfl) fun _ hk => hk⟩
  · obtain ⟨b, hb', rfl⟩ := List.mem_map.1 ha
    obtain ⟨h, hk'⟩ := TryDequeue.keeps hb hk hb'
    exact ⟨h, (hk'.weaken fun _ => trivial).lands (fun _ => rfl) (fun _ => rfl) (fun _ => rfl)
      (fun _ => rfl) fun _ hk => hk⟩
  · obtain ⟨b, hb', rfl⟩ := List.mem_map.1 ha
    have hk' : Keeps lucid n f g₀ (Close.pose α) p.adds True q g mr mp b g :=
      Close.keeps hb hk hb' hs hf
    exact ⟨g, (hk'.weaken fun _ => trivial).lands (fun _ => rfl) (fun _ => rfl) (fun _ => rfl)
      (fun _ => rfl) fun _ hk => hk⟩

theorem enter_role (g : Ghost α) (c : Call α) : role Q (.running c (c.enter Q spins)) =
    match c with
    | .dequeue => Pi.single hungry 1
    | _ => 0 := by
  cases c with
  | dequeue => exact spins_role g spins
  | enqueue v => rfl
  | tryDequeue => rfl
  | close => rfl

theorem enter_part (g : Ghost α) (c : Call α) :
    part Q f (.running c (c.enter Q spins)) = 0 := by
  cases c with
  | dequeue => exact spins_part g f spins
  | enqueue v => rfl
  | tryDequeue => exact Queue.popPart_enter g
  | close => rfl

theorem enter_knows (g : Ghost α) (c : Call α) :
    Knows Q n g (.running c (c.enter Q spins)) := by
  cases c with
  | dequeue => exact spins_knows g spins
  | enqueue v => rfl
  | tryDequeue => exact (Staged.pop_enter g).1
  | close => trivial

theorem Balanced.enter {c : Call α} (hb : Balanced lucid n f g₀ q g mr mp) :
    Balanced lucid n f g₀ q g (role Q (.running c (c.enter Q spins)) + mr)
      (part Q f (.running c (c.enter Q spins)) + mp) := by
  obtain ⟨hw, hs⟩ := hb
  rw [enter_role g, enter_part g, zero_add]
  refine ⟨?_, hs⟩
  cases c with
  | dequeue => exact Watch.arrive hw
  | enqueue v => exact (zero_add mr).symm ▸ hw
  | tryDequeue => exact (zero_add mr).symm ▸ hw
  | close => exact (zero_add mr).symm ▸ hw

theorem answer_eq_zero {x : Part} (hgot : ∀ v, Queue.gotPart f v x = 0) (r : Except PopError α) :
    answer f r x = 0 := by
  cases r with
  | ok v => exact hgot v
  | error e => rfl

theorem Dequeue.part_eq_zero {x : Part} (hpop : ∀ d, Queue.popPart Q d x = 0)
    (hgot : ∀ v, Queue.gotPart f v x = 0) (p : Dequeue α D) : p.part Q f x = 0 := by
  rcases p with ⟨k, d⟩ | _ | d | ⟨_ | (d | _ | d) | r | w | _⟩
  all_goals first | exact hpop d | exact answer_eq_zero hgot r | rfl

theorem part_eq_zero {x : Part} (hpop : ∀ d, Queue.popPart Q d x = 0)
    (hgot : ∀ v, Queue.gotPart f v x = 0) {t : Caller α E D}
    (hr : ∀ v p, t ≠ .running (.enqueue v) (.enqueue p))
    (hf : ∀ v r, t ≠ .finished (.enqueue v) (.pushed r)) : part Q f t x = 0 := by
  rcases t with ⟨v | _ | _ | _, p | p | (d | _) | p⟩ | ⟨v | _ | _ | _, r | r | _⟩
  all_goals first
    | exact Dequeue.part_eq_zero hpop hgot p
    | exact hpop d
    | exact answer_eq_zero hgot r
    | exact absurd rfl (hr v p)
    | exact absurd rfl (hf v r)
    | rfl

theorem part_claim_le (t : Caller α E D) : part Q f t .claim ≤ asks t := by
  by_cases hr : ∃ v p, t = .running (.enqueue v) (.enqueue p)
  · obtain ⟨v, w | e | m, rfl⟩ := hr
    · exact Nat.zero_le _
    · exact Bool.toNat_le _
    · exact Nat.le_refl _
  · by_cases hf : ∃ v r, t = .finished (.enqueue v) (.pushed r)
    · obtain ⟨v, _ | _, rfl⟩ := hf
      · exact Nat.zero_le _
      · exact Nat.le_refl _
    · rw [part_eq_zero (fun _ => rfl) (fun _ => rfl) (by simpa using hr) (by simpa using hf)]
      exact Nat.zero_le _

theorem part_unpublished {t : Caller α E D} (ht : producing t = 0) (p : Nat) :
    part Q f t (.hold (.claimed, p)) = 0 ∧ part Q f t (.hold (.written, p)) = 0 := by
  by_cases hf : ∃ v r, t = .finished (.enqueue v) (.pushed r)
  · obtain ⟨v, _ | _, rfl⟩ := hf <;> exact ⟨rfl, rfl⟩
  · have hr : ∀ v p, t ≠ .running (.enqueue v) (.enqueue p) := by
      rintro v p rfl
      exact absurd ht Nat.one_ne_zero
    exact ⟨part_eq_zero (fun d => (Staged.popHold_eq d p).1) (fun _ => rfl) hr (by simpa using hf),
      part_eq_zero (fun d => (Staged.popHold_eq d p).2) (fun _ => rfl) hr (by simpa using hf)⟩

def OneByOne (k : Crew (Blocking Q) (Call α) (Point α E D) (Reply α)) (c : Call α) : Prop :=
  (∃ v, c = .enqueue v) → ∀ t ∈ k.threads, producing t = 0

/-- The state of a queue that was started with `g₀` in it, and what all its callers count for. -/
structure Kept (lucid : Prop) (n : Nat) (f : α → Bool) (g₀ : Ghost α) (turns : Prop)
    (log : Log Q α) (g : Ghost α)
    (q : Blocking Q) (m : Multiset (Caller α E D)) : Prop where
  count : q.gate.semaphore.count.toInt = balance log
  balanced : Balanced lucid n f g₀ q g (m.map (role Q)).sum (m.map (part Q f)).sum
  clear : turns → g.Clear ∧ (m.map producing).sum ≤ 1

theorem sum_claim_le (m : Multiset (Caller α E D)) :
    (m.map (part Q f)).sum .claim ≤ (m.map asks).sum := by
  induction m using Multiset.induction_on with
  | empty => rfl
  | cons t m ih =>
    rw [Multiset.map_cons, Multiset.map_cons, Multiset.sum_cons, Multiset.sum_cons, Pi.add_apply]
    have := part_claim_le (Q := Q) (f := f) t
    omega

theorem alone_of_sum {m : Multiset (Caller α E D)} (h : (m.map producing).sum = 0) :
    Alone (m.map (part Q f)).sum := by
  induction m using Multiset.induction_on with
  | empty => exact fun _ => ⟨rfl, rfl⟩
  | cons t m ih =>
    rw [Multiset.map_cons, Multiset.sum_cons] at h
    intro p
    have h1 := part_unpublished (Q := Q) (f := f) (by omega : producing t = 0) p
    have h2 := ih (by omega) p
    rw [Multiset.map_cons, Multiset.sum_cons, Pi.add_apply, Pi.add_apply, h1.1, h1.2, h2.1, h2.2]
    exact ⟨rfl, rfl⟩

/-- Whoever looks for the last time can see all there is: nothing ever gets in the way, or producers
take turns, or it just happens so. -/
def Lucid (turns : Prop) (log : Log Q α) : Prop :=
  (∀ n (b : Q) g m, Staged.Tracks n b g m → g.Clear) ∨ turns ∨ Sighted log

theorem Lucid.tail {turns : Prop} {log : Log Q α}
    {e : Crew.Entry (Blocking Q) (Call α) (Point α E D) (Reply α)} (h : Lucid turns (e :: log)) :
    Lucid turns log :=
  h.imp_right (Or.imp_right fun h e he => h e (List.mem_cons_of_mem _ he))

theorem Kept.sees {turns : Prop} {log : Log Q α}
    {e : Crew.Entry (Blocking Q) (Call α) (Point α E D) (Reply α)} {m : Multiset (Caller α E D)}
    (hk : Kept lucid n f g₀ turns log g e.before m) (hl : lucid → Lucid turns (e :: log))
    (he : Missed e)
    (hlucid : lucid) : g.Clear ∨ g.ready = 0 := by
  have ht := hk.balanced.stored.tracks
  rcases hl hlucid with hall | hturns | hs
  · exact .inl (hall _ _ _ _ ht)
  · exact .inl (hk.clear hturns).1
  · exact .inr ((Staged.ready_eq ht).symm.trans (hs e List.mem_cons_self he))

theorem Kept.enter {turns : Prop} {log : Log Q α} {c : Call α} {m : Multiset (Caller α E D)}
    (hk : Kept lucid n f g₀ turns log g q m)
    (hc : turns → (∃ v, c = .enqueue v) → ∀ t ∈ m, producing t = 0) :
    Kept lucid n f g₀ turns log g q (.running c (c.enter Q spins) ::ₘ m) := by
  obtain ⟨hcount, hbal, hclear⟩ := hk
  refine ⟨hcount, ?_, fun ht => ⟨(hclear ht).1, ?_⟩⟩
  · rw [Multiset.map_cons, Multiset.map_cons, Multiset.sum_cons, Multiset.sum_cons]
    exact hbal.enter
  · rw [Multiset.map_cons, Multiset.sum_cons]
    have := (hclear ht).2
    cases c with
    | enqueue v =>
      have hz : (m.map producing).sum = 0 := Multiset.sum_eq_zero fun x hx => by
        obtain ⟨t, hm, rfl⟩ := Multiset.mem_map.1 hx
        exact hc ht ⟨v, rfl⟩ t hm
      rw [hz]
      exact Nat.le_refl 1
    | dequeue => exact (Nat.zero_add _).symm ▸ this
    | tryDequeue => exact (Nat.zero_add _).symm ▸ this
    | close => exact (Nat.zero_add _).symm ▸ this

theorem Kept.move {turns : Prop} {log : Log Q α} {m : Multiset (Caller α E D)} {i : Nat}
    {c : Call α} {p : Point α E D} {a : Move (Blocking Q) (Point α E D) (Reply α)}
    (hk : Kept lucid n f g₀ turns log g q (.running c p ::ₘ m)) (hknows : Knows Q n g (.running c p))
    (ha : a ∈ p.moves spins q) (hx : Exact (⟨i, c, q, p, a⟩ :: log))
    (hl : lucid → Lucid turns (⟨i, c, q, p, a⟩ :: log))
    (hwrap : Staged.Wraps Q →
      g₀.values.length + ((.running c p ::ₘ m).map asks).sum < 2 ^ 63) :
    ∃ h, g.Le h ∧
      Kept lucid n f g₀ turns (⟨i, c, q, p, a⟩ :: log) h (a.land c).1 ((a.land c).2 ::ₘ m) ∧
      Knows Q n h (a.land c).2 := by
  have hsee (t : Blocking Q) (he : a = .go t (.dequeue (.sleep (.recheck .flag)))) :
      lucid → g.Clear ∨ g.ready = 0 := hk.sees hl ⟨t, he⟩
  obtain ⟨hcount, hbal, hclear⟩ := hk
  rw [Multiset.map_cons, Multiset.map_cons, Multiset.sum_cons, Multiset.sum_cons] at hbal
  have hf : Fits (q.gate.semaphore.count.toInt + p.adds) := by
    have := hx.fits _ List.suffix_rfl
    rwa [balance_cons, ← hcount] at this
  have hwrap' : Staged.Wraps Q → g₀.values.length + (m.map (part Q f)).sum .claim +
      asks (.running c p : Caller α E D) < 2 ^ 63 := fun hw => by
    have := hwrap hw
    rw [Multiset.map_cons, Multiset.sum_cons] at this
    have := sum_claim_le (Q := Q) (f := f) m
    omega
  obtain ⟨h, hle, hbal', hcount', hclear', hknows'⟩ :=
    Point.lands hbal hknows ha hwrap' (hx.sleepers _ List.mem_cons_self) hf hsee
  refine ⟨h, hle, ⟨?_, ?_, fun ht => ?_⟩, hknows'⟩
  · rw [balance_cons, ← hcount]
    exact hcount'
  · rw [Multiset.map_cons, Multiset.map_cons, Multiset.sum_cons, Multiset.sum_cons]
    exact hbal'
  · obtain ⟨hc, hone⟩ := hclear ht
    rw [Multiset.map_cons, Multiset.sum_cons] at hone ⊢
    have := producing_land (c := c) (p := p) a
    refine ⟨hclear' (fun hp => alone_of_sum ?_) hc, ?_⟩ <;> omega

section Run

variable {turns : Prop} {older recent log : Log Q α}
  {allowed : Crew (Blocking Q) (Call α) (Point α E D) (Reply α) → Call α → Prop}
  {j k : Crew (Blocking Q) (Call α) (Point α E D) (Reply α)}

theorem Kept.run (hk : Kept lucid n f g₀ turns older g j.state j.threads)
    (hknows : ∀ t ∈ j.threads, Knows Q n g t)
    (hturns : turns → ∀ k c, allowed k c → OneByOne k c)
    (h : Crew.Run (calls spins) allowed j recent k) (hx : Exact (recent ++ older))
    (hl : lucid → Lucid turns (recent ++ older))
    (hwrap : Staged.Wraps Q → g₀.values.length + offers k < 2 ^ 63) :
    ∃ h, g.Le h ∧ Kept lucid n f g₀ turns (recent ++ older) h k.state k.threads ∧
      ∀ t ∈ k.threads, Knows Q n h t := by
  -- the share of a thread is the thread itself, since several measures are taken of them all
  rw [← Crew.total_singleton] at hk ⊢
  have hw : Exact (recent ++ older) ∧ (lucid → Lucid turns (recent ++ older)) ∧
      (Staged.Wraps Q → g₀.values.length +
        ((Crew.total (fun t => ({t} : Multiset (Caller α E D))) k).map asks).sum < 2 ^ 63) := by
    rw [← offers_eq]
    exact ⟨hx, hl, hwrap⟩
  have hrun : ∃ h, (g.Le h ∧ Kept lucid n f g₀ turns (recent ++ older) h k.state
      (Crew.total (fun t => {t}) k)) ∧ ∀ t ∈ k.threads, Knows Q n h t := by
    refine h.invariant (fun t => {t})
      (fun log h q m => g.Le h ∧ Kept lucid n f g₀ turns (log ++ older) h q m) (Knows Q n)
      (fun log m => Exact (log ++ older) ∧ (lucid → Lucid turns (log ++ older)) ∧
        (Staged.Wraps Q → g₀.values.length + (m.map asks).sum < 2 ^ 63))
      Ghost.Le (fun _ _ _ => Knows.mono) ⟨g, ⟨.refl g, hk⟩, hknows⟩ ?_ ?_ ?_ ?_ hw
    · rintro log m c ⟨hx, hl, hwrap⟩
      refine ⟨hx, hl, fun hw => ?_⟩
      have := hwrap hw
      rw [Multiset.map_add, Multiset.sum_add] at this
      omega
    · rintro log m i c s p a ha ⟨hx, hl, hwrap⟩
      refine ⟨hx.tail, fun h => (hl h).tail, fun hw => ?_⟩
      exact sum_asks_land (p := p) m a ▸ hwrap hw
    · rintro log h k c hc ⟨hle, hk⟩ -
      rw [Crew.total_singleton] at hk ⊢
      refine ⟨h, .refl h, ⟨hle, hk.enter fun ht hp t hm => ?_⟩, enter_knows h c⟩
      exact hturns ht k c hc hp t (by simpa using hm)
    · rintro log h m i c s p a ha ⟨hle, hk⟩ hknows ⟨hx, hl, hwrap⟩
      obtain ⟨h', hle', hk', hknows'⟩ := hk.move hknows ha hx hl fun hw =>
        sum_asks_land (p := p) m a ▸ hwrap hw
      exact ⟨h', hle', ⟨hle.trans hle', hk'⟩, hknows'⟩
  obtain ⟨h, ⟨hle, hk'⟩, hknows'⟩ := hrun
  exact ⟨h, hle, hk', hknows'⟩

theorem kept_start {b : Q} (hb : Staged.Tracks n b g₀ 0) (hturns : turns → g₀.Clear) :
    Kept lucid n f g₀ turns [] g₀ (⟨b, {}, false⟩ : Blocking Q) (0 : Multiset (Caller α E D)) := by
  refine ⟨rfl, ⟨?_, ⟨hb, rfl, ?_⟩⟩, fun ht => ⟨hturns ht, Nat.zero_le _⟩⟩
  · refine ⟨?_, ?_, ?_, ?_⟩ <;> simp
  · exact (Nat.zero_add _).symm

theorem run_kept (lucid turns : Prop) (f : α → Bool) {b : Q} (hb : Staged.Tracks n b g₀ 0)
    (hturns : turns → g₀.Clear ∧ ∀ k c, allowed k c → OneByOne k c)
    (h : Crew.Run (calls spins) allowed ⟨⟨b, {}, false⟩, []⟩ log k) (hx : Exact log)
    (hl : lucid → Lucid turns log)
    (hwrap : Staged.Wraps Q → g₀.values.length + offers k < 2 ^ 63) :
    ∃ g, Kept lucid n f g₀ turns log g k.state k.threads ∧ ∀ t ∈ k.threads, Knows Q n g t := by
  rw [← List.append_nil log] at hx hl
  obtain ⟨g, -, hk, hknows⟩ := (kept_start hb fun ht => (hturns ht).1).run (by simp)
    (fun ht => (hturns ht).2) h hx hl hwrap
  exact ⟨g, List.append_nil log ▸ hk, hknows⟩

end Run

theorem sum_apply {T X : Type} (F : T → X → Nat) (m : Multiset T) (x : X) :
    (m.map F).sum x = (m.map fun t => F t x).sum := by
  rw [Pi.multiset_sum_apply, Multiset.map_map]
  rfl

theorem sum_eq_zero {T X : Type} {F : T → X → Nat} {m : Multiset T} {x : X}
    (h : ∀ t ∈ m, F t x = 0) : (m.map F).sum x = 0 := by
  rw [sum_apply]
  refine Multiset.sum_eq_zero fun y hy => ?_
  obtain ⟨t, ht, rfl⟩ := Multiset.mem_map.1 hy
  exact h t ht

end

end WorkStealing.Blocking
