import WorkStealing.Proofs.Pool.View
import WorkStealing.Proofs.Ring.Stock
import Mathlib.Algebra.BigOperators.Group.Multiset.Basic
import Mathlib.Algebra.Order.BigOperators.Group.Finset
import Mathlib.Algebra.Order.BigOperators.Group.Multiset

namespace WorkStealing.Pool

variable {β : Type}

namespace View

def stake (q : Nat) : View β → Hold → Nat
  | .pop w d _ => if w = q then d.share else 0
  | .push _ w e _ _ => if w = q then e.share else 0
  | _ => 0

@[simp]
theorem stake_pop (w : Nat) (d : Ring.Pop β) (nap : Option (Nat × Nat)) :
    (View.pop w d nap).stake w = d.share := if_pos rfl

@[simp]
theorem stake_push (t : β) (w : Nat) (e : Ring.Push β) (c : Nat) (single : Bool) :
    (View.push t w e c single).stake w = e.share := if_pos rfl

theorem stake_look (t : β) (w c : Nat) (single : Bool) :
    (View.push t w (.look t) c single).stake = fun _ => 0 := funext fun _ => ite_self _

def napping : View β → Nat
  | .pop _ _ nap => nap.isSome.toNat
  | .recheck _ _ => 1
  | .hold _ b => b.toNat
  | .committed _ => 1
  | .acquiring _ => 1
  | .waking => 1
  | _ => 0

def stuck : View β → Nat
  | .acquiring _ => 1
  | _ => 0

def adds : View β → Nat
  | .adding n => n
  | _ => 0

def owes : View β → Nat
  | .owed n => n
  | _ => 0

def owing : View β → Nat
  | .aim _ c _ => c
  | .push _ _ e c _ => e.claims + c
  | .placed c => c
  | .cut c => c
  | .look limit => limit
  | _ => 0

def inHand (f : β → Bool) : View β → Nat
  | .hold t _ => (f t).toNat
  | _ => 0

def inPlay (f : β → Bool) : View β → Nat
  | .aim t _ single => (single && f t).toNat
  | .push t _ _ _ single => (single && f t).toNat
  | _ => 0

def claiming : View β → Nat
  | .push _ _ e _ _ => e.claiming
  | _ => 0

/-- A worker that naps and has looked at queue `q` since it declared that it would. -/
def Past (n q : Nat) : View β → Prop
  | .pop _ _ (some (i, o)) => ∃ x < o, (i + x) % n = q
  | .recheck i o => ∃ x < o, (i + x) % n = q
  | .committed _ => True
  | .acquiring _ => True
  | _ => False

def Knows (cap : Nat) (G : Nat → Ghost β) : View β → Prop
  | .pop w d _ => d.Knows (G w)
  | .push t w e _ _ => e.Knows cap (G w) t
  | _ => True

theorem Knows.mono {cap : Nat} {G H : Nat → Ghost β} {v : View β} (l : ∀ q, (G q).Le (H q))
    (hk : v.Knows cap G) : v.Knows cap H := by
  cases v with
  | pop w d nap => exact Ring.Pop.Knows.mono (l w) hk
  | push t w e c single => exact Ring.Push.Knows.mono (l w) hk
  | _ => trivial

def Seeking : View β → Prop
  | .away | .pop .. | .recheck .. | .hold .. | .committed _ | .acquiring _ | .waking => True
  | _ => False

theorem Seeking.quiet {v : View β} (h : v.Seeking) : v.claiming = 0 ∧ v.adds = 0 ∧ v.owes = 0 := by
  cases v <;> first | exact h.elim | exact ⟨rfl, rfl, rfl⟩

theorem Past.napping {n q : Nat} {v : View β} (h : v.Past n q) : 0 < v.napping := by
  cases v with
  | pop w d nap =>
    cases nap with
    | none => exact h.elim
    | some x => exact Nat.one_pos
  | recheck i o => exact Nat.one_pos
  | committed i => exact Nat.one_pos
  | acquiring i => exact Nat.one_pos
  | _ => exact h.elim

end View

def Deed.submits (f : β → Bool) : Deed β → Nat
  | .submitted t => (f t).toNat
  | _ => 0

def Deed.begins (f : β → Bool) : Deed β → Nat
  | .begun t => (f t).toNat
  | _ => 0

def Deed.settles (f : β → Bool) : Deed β → Nat
  | .begun t => (f t).toNat
  | .dropped t => (f t).toNat
  | _ => 0

/-- A thread, as the worker it is, if it is one, and what it is about. -/
abbrev Actor (β : Type) := Option Nat × View β

def tot (F : View β → Nat) (m : Multiset (Actor β)) : Nat := (m.map fun a => F a.2).sum

@[simp]
theorem tot_cons (F : View β → Nat) (a : Actor β) (m : Multiset (Actor β)) :
    tot F (a ::ₘ m) = F a.2 + tot F m := by
  simp [tot]

theorem le_tot {F : View β → Nat} {a : Actor β} {m : Multiset (Actor β)} (h : a ∈ m) :
    F a.2 ≤ tot F m :=
  Multiset.single_le_sum (by simp) _ (Multiset.mem_map_of_mem (fun a : Actor β => F a.2) h)

theorem exists_of_tot {F : View β → Nat} {m : Multiset (Actor β)} (h : 0 < tot F m) :
    ∃ a ∈ m, 0 < F a.2 := by
  by_contra hc
  push Not at hc
  have : tot F m = 0 := Multiset.sum_eq_zero fun x hx => by
    obtain ⟨a, ha, rfl⟩ := Multiset.mem_map.1 hx
    have := hc a ha
    omega
  omega

def AllPast (n q : Nat) (m : Multiset (Actor β)) : Prop :=
  ∀ i < n, ∃ v, (some i, v) ∈ m ∧ v.Past n q

/-- The wakeups that are still to come. -/
def credit (g : Gate) (m : Multiset (Actor β)) : Int :=
  tot View.owing m + tot View.adds m + tot View.stuck m + g.semaphore.count.toInt

def claimed (n : Nat) (G : Nat → Ghost β) : Nat := ∑ q ∈ Finset.range n, (G q).values.length

def stocked (n : Nat) (f : β → Bool) (G : Nat → Ghost β) : Nat :=
  ∑ q ∈ Finset.range n, (G q).stock f

/-- The rings, the count of sleepers and the tasks, whatever becomes of the workers. -/
structure Firm (n cap : Nat) (f : β → Bool) (x : Core β) (G : Nat → Ghost β)
    (submitted settled : Nat) (m : Multiset (Actor β)) : Prop where
  size : x.queues.length = n
  rings : ∀ q (r : Ring β), x.queues[q]? = some r →
    r.Tracks cap (G q) fun h => tot (fun v => v.stake q h) m
  sleepers : x.gate.sleepers = tot View.napping m
  kept : submitted = settled + tot (View.inHand f) m + tot (View.inPlay f) m + stocked n f G

structure Roster (n : Nat) (m : Multiset (Actor β)) : Prop where
  workers : (m.filterMap Prod.fst).Nodup
  below : ∀ i ∈ m.filterMap Prod.fst, i < n
  napping : ∀ a ∈ m, 0 < a.2.napping → a.1.isSome

structure Sound (n cap : Nat) (f : β → Bool) (x : Core β) (G : Nat → Ghost β)
    (submitted begun : Nat) (m : Multiset (Actor β)) : Prop
    extends Firm n cap f x G submitted begun m, Roster n m where
  running : ∀ a ∈ x.phases, a = .running
  parked : tot View.stuck m = x.gate.semaphore.permits + tot View.owes m +
    (-x.gate.semaphore.count.toInt).toNat
  funded : x.gate.semaphore.count.toInt + tot View.adds m + tot View.owing m ≤ claimed n G
  noticed : ∀ q < n, AllPast n q m → (G q).front < (G q).values.length → 0 < credit x.gate m

section Still

variable {n : Nat} {f : β → Bool} {d : Deed β} {v v' : View β}

theorem Still.stake (h : Still n v d v') (q : Nat) : v.stake q = 0 ∧ v'.stake q = 0 := by
  cases h <;> simp [View.stake, Ring.Pop.share, Ring.Push.share]

theorem Still.napping (h : Still n v d v') : v'.napping = v.napping := by
  cases h <;> simp [View.napping]

theorem Still.owing (h : Still n v d v') : v'.owing = v.owing := by
  cases h <;> simp [View.owing, Ring.Push.claims]

theorem Still.gate (h : Still n v d v') : v.stuck = 0 ∧ v'.stuck = 0 ∧ v.adds = 0 ∧ v'.adds = 0 ∧
    v.owes = 0 ∧ v'.owes = 0 := by
  cases h <;> simp [View.stuck, View.adds, View.owes]

theorem Still.kept (h : Still n v d v') : d.submits f + v.inHand f + v.inPlay f =
    d.begins f + v'.inHand f + v'.inPlay f := by
  cases h <;> simp [View.inHand, View.inPlay, Deed.submits, Deed.begins]

theorem Still.settles (h : Still n v d v') : d.settles f = d.begins f := by
  cases h <;> rfl

theorem Still.claiming (h : Still n v d v') : v'.claiming = 0 := by
  cases h <;> rfl

theorem Still.knows {cap : Nat} {G : Nat → Ghost β} (h : Still n v d v') :
    v'.Knows cap G := by
  cases h <;> trivial

theorem exists_add_mod {n q : Nat} (i : Nat) (hq : q < n) : ∃ x < n, (i + x) % n = q := by
  have hi := Nat.mod_lt i (by omega : 0 < n)
  refine ⟨(q + (n - i % n)) % n, Nat.mod_lt _ (by omega), ?_⟩
  have hdiv := Nat.div_add_mod i n
  have he : i + (q + (n - i % n)) = q + n * (i / n + 1) := by
    rw [Nat.mul_succ]
    omega
  rw [Nat.add_mod_mod, he, Nat.add_mul_mod_self_left, Nat.mod_eq_of_lt hq]

theorem Still.past (h : Still n v d v') {q : Nat} (hq : q < n) (hp : v'.Past n q) :
    v.Past n q := by
  cases h with
  | recheck h => exact hp
  | commit h =>
    rename_i i o
    obtain ⟨x, hx, he⟩ := exists_add_mod i hq
    exact ⟨x, by omega, he⟩
  | _ => exact hp.elim

end Still

section Steps

variable {n cap : Nat} {f : β → Bool} {x y : Core β} {G H : Nat → Ghost β}
  {submitted begun : Nat} {o : Option Nat} {v v' : View β} {m : Multiset (Actor β)}

theorem mem_of_ne {a b : Actor β} (h : a ∈ b ::ₘ m) (hne : a ≠ b) : a ∈ m := by
  rcases Multiset.mem_cons.1 h with h | h
  · exact absurd h hne
  · exact h

theorem worker_notMem {i : Nat} (h : (((some i, v) ::ₘ m).filterMap Prod.fst).Nodup)
    (u : View β) : (some i, u) ∉ m := by
  intro hu
  have hn : (i ::ₘ m.filterMap Prod.fst).Nodup := by simpa using h
  exact (Multiset.nodup_cons.1 hn).1 ((Multiset.mem_filterMap _ _).2 ⟨_, hu, rfl⟩)

theorem Sound.noticed_step (h : Sound n cap f x G submitted begun ((o, v) ::ₘ m)) {g : Gate}
    (hpast : ∀ q < n, v'.Past n q → (H q).front < (H q).values.length →
      v.Past n q ∨ 0 < credit g ((o, v') ::ₘ m))
    (hlen : ∀ q < n, (H q).front < (H q).values.length →
      (G q).front < (G q).values.length ∨ 0 < credit g ((o, v') ::ₘ m))
    (hcredit : ∀ q < n, (o = none ∧ 0 < tot View.napping m) ∨ v'.Past n q →
      0 < credit x.gate ((o, v) ::ₘ m) → 0 < credit g ((o, v') ::ₘ m)) :
    ∀ q < n, AllPast n q ((o, v') ::ₘ m) → (H q).front < (H q).values.length →
      0 < credit g ((o, v') ::ₘ m) := by
  intro q hq ha hl
  rcases hlen q hq hl with hl0 | hdone
  swap
  · exact hdone
  cases o with
  | none =>
    -- all who have looked at `q` are among the others
    have hm : ∀ i < n, ∃ u, (some i, u) ∈ m ∧ u.Past n q := fun i hi => by
      obtain ⟨u, hu, hp⟩ := ha i hi
      exact ⟨u, mem_of_ne hu (by simp), hp⟩
    obtain ⟨u, hu, hp⟩ := hm 0 (by omega)
    refine hcredit q hq (.inl ⟨rfl, hp.napping.trans_le (le_tot hu)⟩) (h.noticed q hq ?_ hl0)
    intro i hi
    obtain ⟨u, hu, hp⟩ := hm i hi
    exact ⟨u, Multiset.mem_cons.2 (.inr hu), hp⟩
  | some i =>
    -- the worker that moved has one entry, and so is the one that has looked at `q` now
    have hi : i < n := h.below i (by simp)
    obtain ⟨u, hu, hp⟩ := ha i hi
    obtain rfl : u = v' := by
      by_contra hne
      exact worker_notMem h.workers u (mem_of_ne hu (by simpa using hne))
    rcases hpast q hq hp hl with hv | hdone
    swap
    · exact hdone
    refine hcredit q hq (.inr hp) (h.noticed q hq ?_ hl0)
    intro j hj
    obtain ⟨w, hw, hpw⟩ := ha j hj
    by_cases he : j = i
    · subst he
      exact ⟨v, by simp, hv⟩
    · exact ⟨w, Multiset.mem_cons.2 (.inr (mem_of_ne hw (by simp [he]))), hpw⟩

theorem workers_eq (v' : View β) : ((o, v') ::ₘ m).filterMap Prod.fst =
    ((o, v) ::ₘ m).filterMap Prod.fst := by
  rw [Multiset.filterMap_cons, Multiset.filterMap_cons]

theorem tot_stake {q : Nat} (hv : v.stake q = 0) :
    (fun h => tot (fun u => u.stake q h) ((o, v) ::ₘ m)) =
      fun h => tot (fun u => u.stake q h) m := by
  funext h
  simp [hv]

theorem credit_pos {g g' : Gate} (hc : 0 < credit g ((o, v) ::ₘ m))
    (h : v.owing + v.adds + v.stuck + g.semaphore.count.toInt ≤
      v'.owing + v'.adds + v'.stuck + g'.semaphore.count.toInt) :
    0 < credit g' ((o, v') ::ₘ m) := by
  simp only [credit, tot_cons] at hc ⊢
  omega

theorem Sound.stuck_count (h : Sound n cap f x G submitted begun m) :
    0 ≤ tot View.stuck m + x.gate.semaphore.count.toInt := by
  have := h.parked
  omega

theorem Roster.isSome (h : Roster n ((o, v) ::ₘ m)) (hv : 0 < v.napping) : o.isSome :=
  h.napping (o, v) (Multiset.mem_cons_self _ _) hv

theorem Roster.turn (h : Roster n ((o, v) ::ₘ m)) (ho : 0 < v'.napping → o.isSome) :
    Roster n ((o, v') ::ₘ m) := by
  refine ⟨?_, ?_, fun a ha hn => ?_⟩
  · rw [workers_eq v']
    exact h.workers
  · rw [workers_eq v']
    exact h.below
  · rcases Multiset.mem_cons.1 ha with rfl | ha
    · exact ho hn
    · exact h.napping a (Multiset.mem_cons.2 (.inr ha)) hn

theorem Roster.join (h : Roster n m) (ho : ∀ i ∈ o, i < n ∧ i ∉ m.filterMap Prod.fst) :
    Roster n ((o, .away) ::ₘ m) := by
  refine ⟨?_, fun i hi => ?_, fun a ha hn => ?_⟩
  · rw [Multiset.filterMap_cons]
    rcases o with _ | i
    · simpa using h.workers
    · simpa using Multiset.nodup_cons.2 ⟨(ho i rfl).2, h.workers⟩
  · rw [Multiset.filterMap_cons, Multiset.mem_add] at hi
    rcases hi with hi | hi
    · rcases o with _ | j
      · simp at hi
      · obtain rfl : i = j := by simpa using hi
        exact (ho i rfl).1
    · exact h.below i hi
  · rcases Multiset.mem_cons.1 ha with rfl | ha
    · exact absurd hn (Nat.lt_irrefl _)
    · exact h.napping a ha hn

theorem Firm.calm {s b : Nat} (h : Firm n cap f x G submitted begun ((o, v) ::ₘ m)) (g : Gate)
    (hv : ∀ q, v.stake q = 0) (hv' : ∀ q, v'.stake q = 0)
    (hsleepers : g.sleepers + v.napping = x.gate.sleepers + v'.napping)
    (hkept : s + begun + v.inHand f + v.inPlay f = submitted + b + v'.inHand f + v'.inPlay f) :
    Firm n cap f (x.setGate g) G s b ((o, v') ::ₘ m) := by
  refine ⟨h.size, fun q r hr => ?_, ?_, ?_⟩
  · rw [tot_stake (hv' q), ← tot_stake (hv q)]
    exact h.rings q r hr
  · have := h.sleepers
    simp only [tot_cons, Core.setGate] at this ⊢
    omega
  · have := h.kept
    simp only [tot_cons] at this ⊢
    omega

theorem Firm.still {d : Deed β} (h : Firm n cap f x G submitted begun ((o, v) ::ₘ m))
    (hs : Still n v d v') :
    Firm n cap f x G (submitted + d.submits f) (begun + d.settles f) ((o, v') ::ₘ m) := by
  have hnap := hs.napping
  have hkept := hs.kept (f := f)
  have hsettles := hs.settles (f := f)
  exact h.calm x.gate (fun q => (hs.stake q).1) (fun q => (hs.stake q).2) (by omega) (by omega)

theorem Firm.leave (h : Firm n cap f x G submitted begun ((o, v) ::ₘ m))
    (hv : ∀ q, v.stake q = 0) (hv' : ∀ q, v'.stake q = 0)
    (hnap : v.napping = 1 ∧ v'.napping = 0)
    (hkept : v'.inHand f = v.inHand f ∧ v'.inPlay f = v.inPlay f) :
    Firm n cap f (x.setGate x.gate.leave) G submitted begun ((o, v') ::ₘ m) := by
  have hsleepers := h.sleepers
  simp only [tot_cons] at hsleepers
  refine h.calm x.gate.leave hv hv' ?_ (by omega)
  simp only [Gate.leave]
  omega

theorem Sound.calm {s b : Nat} (h : Sound n cap f x G submitted begun ((o, v) ::ₘ m)) (g : Gate)
    (hv : ∀ q, v.stake q = 0) (hv' : ∀ q, v'.stake q = 0) (ho : 0 < v'.napping → o.isSome)
    (hsleepers : g.sleepers + v.napping = x.gate.sleepers + v'.napping)
    (hparked : v'.stuck + x.gate.semaphore.permits + v.owes +
      (-x.gate.semaphore.count.toInt).toNat =
        v.stuck + g.semaphore.permits + v'.owes + (-g.semaphore.count.toInt).toNat)
    (hfunded : g.semaphore.count.toInt + v'.adds + v'.owing ≤
      x.gate.semaphore.count.toInt + v.adds + v.owing)
    (hpast : ∀ q < n, v'.Past n q → v.Past n q)
    (hcredit : ∀ q < n, (o = none ∧ 0 < tot View.napping m) ∨ v'.Past n q →
      0 < credit x.gate ((o, v) ::ₘ m) → 0 < credit g ((o, v') ::ₘ m))
    (hkept : s + begun + v.inHand f + v.inPlay f = submitted + b + v'.inHand f + v'.inPlay f) :
    Sound n cap f (x.setGate g) G s b ((o, v') ::ₘ m) := by
  refine ⟨h.toFirm.calm g hv hv' hsleepers hkept, h.toRoster.turn ho, h.running, ?_, ?_, ?_⟩
  · have := h.parked
    simp only [tot_cons, Core.setGate] at this ⊢
    omega
  · have := h.funded
    simp only [tot_cons, Core.setGate] at this ⊢
    push_cast at this ⊢
    omega
  · exact h.noticed_step (fun q hq hp _ => .inl (hpast q hq hp)) (fun _ _ hl => .inl hl) hcredit

theorem Sound.still {d : Deed β} (h : Sound n cap f x G submitted begun ((o, v) ::ₘ m))
    (hs : Still n v d v') (ho : 0 < v'.napping → o.isSome) :
    Sound n cap f x G (submitted + d.submits f) (begun + d.begins f) ((o, v') ::ₘ m) := by
  obtain ⟨h1, h2, h3, h4, h5, h6⟩ := hs.gate
  have hnap := hs.napping
  have howing := hs.owing
  have hkept := hs.kept (f := f)
  refine h.calm x.gate (fun q => (hs.stake q).1) (fun q => (hs.stake q).2) ho (by omega)
    (by omega) (by omega) (fun q hq hp => hs.past hq hp) (fun q _ _ hc => ?_) (by omega)
  simp only [credit, tot_cons] at hc ⊢
  omega

section Gate

variable {i k : Nat} {s : Semaphore} {t : β}

theorem Sound.declare (h : Sound n cap f x G submitted begun ((o, .away) ::ₘ m))
    (ho : o.isSome) :
    Sound n cap f (x.setGate x.gate.enter) G submitted begun ((o, .recheck i 0) ::ₘ m) := by
  refine h.calm x.gate.enter (fun _ => rfl) (fun _ => rfl) (fun _ => ho) rfl rfl le_rfl ?_ ?_ rfl
  · rintro q - ⟨y, hy, -⟩
    omega
  · exact fun _ _ _ hc => credit_pos hc le_rfl

theorem Sound.leave (h : Sound n cap f x G submitted begun ((o, v) ::ₘ m))
    (hv : ∀ q, v.stake q = 0) (hv' : ∀ q, v'.stake q = 0) (hnap : v.napping = 1)
    (hgate : v.stuck = v'.stuck ∧ v.owes = v'.owes ∧ v'.napping = 0)
    (hadds : v.adds = v'.adds ∧ v.owing = v'.owing) (hpast : ∀ q, ¬ v'.Past n q)
    (hkept : v'.inHand f = v.inHand f ∧ v'.inPlay f = v.inPlay f) :
    Sound n cap f (x.setGate x.gate.leave) G submitted begun ((o, v') ::ₘ m) := by
  have hsleepers := h.sleepers
  simp only [tot_cons] at hsleepers
  obtain ⟨g1, g2, g3⟩ := hgate
  refine h.calm x.gate.leave hv hv' (fun h => by omega) ?_ ?_ ?_ (fun q _ hp => (hpast q hp).elim)
    (fun q _ _ hc => credit_pos hc ?_) (by omega)
  all_goals
    simp only [Gate.leave]
    omega

theorem Sound.retract (h : Sound n cap f x G submitted begun ((o, .hold t true) ::ₘ m)) :
    Sound n cap f (x.setGate x.gate.leave) G submitted begun ((o, .hold t false) ::ₘ m) :=
  h.leave (fun _ => rfl) (fun _ => rfl) rfl ⟨rfl, rfl, rfl⟩ ⟨rfl, rfl⟩ (fun _ => id)
    ⟨rfl, rfl⟩

theorem Sound.wake (h : Sound n cap f x G submitted begun ((o, .waking) ::ₘ m)) :
    Sound n cap f (x.setGate x.gate.leave) G submitted begun ((o, .away) ::ₘ m) :=
  h.leave (fun _ => rfl) (fun _ => rfl) rfl ⟨rfl, rfl, rfl⟩ ⟨rfl, rfl⟩ (fun _ => id)
    ⟨rfl, rfl⟩

theorem tot_le_card {F : View β → Nat} (h : ∀ a ∈ m, F a.2 ≤ a.1.isSome.toNat) :
    tot F m ≤ Multiset.card (m.filterMap Prod.fst) := by
  induction m using Multiset.induction_on with
  | empty => simp [tot]
  | cons a m ih =>
    have h1 := h a (Multiset.mem_cons_self _ _)
    have h2 := ih fun b hb => h b (Multiset.mem_cons_of_mem hb)
    rw [tot_cons, Multiset.filterMap_cons, Multiset.card_add]
    rcases a with ⟨_ | i, u⟩
    · simpa using Nat.add_le_add h1 h2
    · simpa [Nat.add_comm] using Nat.add_le_add h1 h2

theorem Roster.card_le (h : Roster n m) : Multiset.card (m.filterMap Prod.fst) ≤ n := by
  have hsub : m.filterMap Prod.fst ⊆ Multiset.range n :=
    fun i hi => Multiset.mem_range.2 (h.below i hi)
  simpa using Multiset.card_le_card ((Multiset.le_iff_subset h.workers).2 hsub)

theorem Roster.stuck_lt (h : Roster n ((o, .committed i) ::ₘ m)) : tot View.stuck m < n := by
  have hle : tot View.stuck m ≤ Multiset.card (m.filterMap Prod.fst) := by
    refine tot_le_card fun a ha => ?_
    have hnap := h.napping a (Multiset.mem_cons_of_mem ha)
    rcases a with ⟨j, u⟩
    cases u with
    | acquiring i =>
      have := hnap Nat.one_pos
      simp only at this
      simp [View.stuck, this]
    | _ => exact Nat.zero_le _
  obtain ⟨j, rfl⟩ := Option.isSome_iff_exists.1 (h.isSome Nat.one_pos)
  have hcard : Multiset.card (m.filterMap Prod.fst) + 1 ≤ n := by simpa using h.card_le
  omega

theorem Sound.fits_sub (h : Sound n cap f x G submitted begun ((o, .committed i) ::ₘ m))
    (hn : n ≤ 2 ^ 63) : Fits (x.gate.semaphore.count.toInt - 1) := by
  have hlt := h.stuck_lt
  have hparked := h.parked
  have hmax := x.gate.semaphore.count.toInt_lt
  simp only [tot_cons, View.stuck] at hparked
  constructor <;> omega

theorem Sound.pass (h : Sound n cap f x G submitted begun ((o, .committed i) ::ₘ m))
    (hn : n ≤ 2 ^ 63) (ha : .done s () ∈ Semaphore.Wait.moves x.gate.semaphore .subtract) :
    Sound n cap f (x.setGate (x.gate.setSemaphore s)) G submitted begun ((o, .waking) ::ₘ m) := by
  have hsome := h.isSome Nat.one_pos
  cases Semaphore.Wait.step ha (h.fits_sub hn) with
  | pass hz hc hp =>
    refine h.calm (x.gate.setSemaphore s) (fun _ => rfl) (fun _ => rfl) (fun _ => hsome) rfl ?_ ?_
      (fun _ _ hp => hp.elim) ?_ rfl
    · simp only [Gate.setSemaphore, View.stuck, View.owes]
      omega
    · simp only [Gate.setSemaphore, View.adds, View.owing]
      omega
    · rintro q - (⟨rfl, -⟩ | hp)
      · simp at hsome
      · exact hp.elim

theorem Sound.sink (h : Sound n cap f x G submitted begun ((o, .committed i) ::ₘ m))
    (hn : n ≤ 2 ^ 63) (ha : .go s .acquire ∈ Semaphore.Wait.moves x.gate.semaphore .subtract) :
    Sound n cap f (x.setGate (x.gate.setSemaphore s)) G submitted begun
      ((o, .acquiring i) ::ₘ m) := by
  have hsome := h.isSome Nat.one_pos
  cases Semaphore.Wait.step ha (h.fits_sub hn) with
  | sink hz hc hp =>
    refine h.calm (x.gate.setSemaphore s) (fun _ => rfl) (fun _ => rfl) (fun _ => hsome) rfl ?_ ?_
      (fun _ _ _ => trivial) (fun q _ _ hc' => credit_pos hc' ?_) rfl
    · simp only [Gate.setSemaphore, View.stuck, View.owes]
      omega
    · simp only [Gate.setSemaphore, View.adds, View.owing]
      omega
    · simp only [Gate.setSemaphore, View.adds, View.owing, View.stuck]
      omega

theorem Sound.acquire (h : Sound n cap f x G submitted begun ((o, .acquiring i) ::ₘ m))
    (ha : .done s () ∈ Semaphore.Wait.moves x.gate.semaphore .acquire) :
    Sound n cap f (x.setGate (x.gate.setSemaphore s)) G submitted begun ((o, .waking) ::ₘ m) := by
  have hsome := h.isSome Nat.one_pos
  have hfits : Fits (x.gate.semaphore.count.toInt + (Semaphore.Wait.acquire).adds) := by
    have := x.gate.semaphore.count.toInt_lt
    have := x.gate.semaphore.count.le_toInt
    constructor <;> simp only [Semaphore.Wait.adds] <;> omega
  cases Semaphore.Wait.step ha hfits with
  | acquire hc hp =>
    refine h.calm (x.gate.setSemaphore s) (fun _ => rfl) (fun _ => rfl) (fun _ => hsome) rfl ?_ ?_
      (fun _ _ hp => hp.elim) ?_ rfl
    · simp only [Gate.setSemaphore, View.stuck, View.owes, hc]
      omega
    · simp only [Gate.setSemaphore, View.adds, View.owing, hc]
      omega
    · rintro q - (⟨rfl, -⟩ | hp)
      · simp at hsome
      · exact hp.elim

theorem Sound.lookNone {limit : Nat}
    (h : Sound n cap f x G submitted begun ((o, .look limit) ::ₘ m))
    (hz : min x.gate.sleepers limit = 0) :
    Sound n cap f x G submitted begun ((o, .away) ::ₘ m) := by
  have hsleepers := h.sleepers
  simp only [tot_cons, View.napping] at hsleepers
  refine h.calm x.gate (fun _ => rfl) (fun _ => rfl) (fun h => absurd h (Nat.lt_irrefl _)) rfl rfl
    ?_ (fun _ _ hp => hp.elim) ?_ rfl
  · simp only [View.adds, View.owing]
    omega
  · rintro q - (⟨-, hnap⟩ | hp) hc
    · refine credit_pos hc ?_
      simp only [View.adds, View.owing, View.stuck]
      omega
    · exact hp.elim

theorem Sound.lookSome {limit : Nat}
    (h : Sound n cap f x G submitted begun ((o, .look limit) ::ₘ m))
    (hk : min x.gate.sleepers limit = k + 1) :
    Sound n cap f x G submitted begun ((o, .adding (k + 1)) ::ₘ m) := by
  have hstuck := h.stuck_count
  simp only [tot_cons, View.stuck] at hstuck
  refine h.calm x.gate (fun _ => rfl) (fun _ => rfl) (fun h => absurd h (Nat.lt_irrefl _)) rfl rfl
    ?_ (fun _ _ hp => hp.elim) ?_ rfl
  · simp only [View.adds, View.owing]
    omega
  · intro q _ _ _
    simp only [credit, tot_cons, View.adds, View.owing, View.stuck]
    omega

theorem Sound.fits_add (h : Sound n cap f x G submitted begun ((o, .adding k) ::ₘ m))
    (hb : claimed n G < 2 ^ 63) : Fits (x.gate.semaphore.count.toInt + k) := by
  have hfunded := h.funded
  have hmin := x.gate.semaphore.count.le_toInt
  simp only [tot_cons, View.adds, View.owing] at hfunded
  constructor <;> omega

theorem Sound.post (h : Sound n cap f x G submitted begun ((o, v) ::ₘ m))
    (hv : ∀ q, v.stake q = 0) (hv' : ∀ q, v'.stake q = 0) (hnap : v.napping = 0 ∧ v'.napping = 0)
    (hpast : ∀ q, ¬ v'.Past n q)
    (hidle : v.inHand f = v'.inHand f ∧ v.inPlay f = v'.inPlay f ∧ v.stuck = 0 ∧ v'.stuck = 0 ∧
      v.owing = v'.owing)
    (hadds : s.count.toInt + v'.adds = x.gate.semaphore.count.toInt + v.adds)
    (howes : x.gate.semaphore.permits + v.owes + (-x.gate.semaphore.count.toInt).toNat =
      s.permits + v'.owes + (-s.count.toInt).toNat) :
    Sound n cap f (x.setGate (x.gate.setSemaphore s)) G submitted begun ((o, v') ::ₘ m) := by
  obtain ⟨h1, h2, h3, h4, h5⟩ := hidle
  refine h.calm (x.gate.setSemaphore s) hv hv' (fun h => by omega) ?_ ?_ ?_
    (fun q _ hp => (hpast q hp).elim) (fun q _ _ hc => credit_pos hc ?_) (by omega)
  all_goals
    simp only [Gate.setSemaphore]
    omega

theorem Sound.add (h : Sound n cap f x G submitted begun ((o, .adding k) ::ₘ m))
    (hb : claimed n G < 2 ^ 63) (ha : .done s () ∈ Semaphore.Post.moves x.gate.semaphore (.add k)) :
    Sound n cap f (x.setGate (x.gate.setSemaphore s)) G submitted begun ((o, .away) ::ₘ m) := by
  cases Semaphore.Post.step ha (h.fits_add hb) with
  | add hz hc hp =>
    refine h.post (fun _ => rfl) (fun _ => rfl) ⟨rfl, rfl⟩ (fun _ => id)
      ⟨rfl, rfl, rfl, rfl, rfl⟩ ?_ ?_
    · simp only [View.adds]
      omega
    · simp only [View.owes]
      omega

theorem Sound.owe {l : Nat} (h : Sound n cap f x G submitted begun ((o, .adding k) ::ₘ m))
    (hb : claimed n G < 2 ^ 63)
    (ha : .go s (.release l) ∈ Semaphore.Post.moves x.gate.semaphore (.add k)) :
    Sound n cap f (x.setGate (x.gate.setSemaphore s)) G submitted begun ((o, .owed l) ::ₘ m) := by
  cases Semaphore.Post.step ha (h.fits_add hb) with
  | owe hz hc hp =>
    refine h.post (fun _ => rfl) (fun _ => rfl) ⟨rfl, rfl⟩ (fun _ => id)
      ⟨rfl, rfl, rfl, rfl, rfl⟩ ?_ ?_
    · simp only [View.adds]
      omega
    · simp only [View.owes]
      omega

theorem Sound.release (h : Sound n cap f x G submitted begun ((o, .owed k) ::ₘ m))
    (ha : .done s () ∈ Semaphore.Post.moves x.gate.semaphore (.release k)) :
    Sound n cap f (x.setGate (x.gate.setSemaphore s)) G submitted begun ((o, .away) ::ₘ m) := by
  have hfits : Fits (x.gate.semaphore.count.toInt + (Semaphore.Post.release k).adds) := by
    have := x.gate.semaphore.count.toInt_lt
    have := x.gate.semaphore.count.le_toInt
    constructor <;> simp only [Semaphore.Post.adds] <;> omega
  cases Semaphore.Post.step ha hfits with
  | release hc hp =>
    refine h.post (fun _ => rfl) (fun _ => rfl) ⟨rfl, rfl⟩ (fun _ => id)
      ⟨rfl, rfl, rfl, rfl, rfl⟩ ?_ ?_
    · simp only [View.adds, hc]
    · simp only [View.owes, hc, hp]
      omega

end Gate

end Steps

end WorkStealing.Pool
