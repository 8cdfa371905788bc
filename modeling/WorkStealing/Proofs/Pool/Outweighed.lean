import WorkStealing.Proofs.Pool.Advance

namespace WorkStealing.Pool

variable {β : Type}

open Classical in
/-- Whether a worker that naps has looked at all of these queues since it declared that it would. -/
noncomputable def View.past (n : Nat) (S : Finset Nat) (v : View β) : Nat :=
  if ∀ q ∈ S, v.Past n q then 1 else 0

def untaken (S : Finset Nat) (G : Nat → Ghost β) : Nat :=
  ∑ q ∈ S, ((G q).values.length - (G q).front)

def View.weight (v : View β) : Nat := v.owing + v.adds + v.stuck

structure Outweighed (n : Nat) (g : Gate) (G : Nat → Ghost β) (m : Multiset (Actor β)) : Prop where
  either : ∀ S ⊆ Finset.range n, S.Nonempty → tot (View.past n S) m ≤ credit g m ∨
    (untaken S G + tot (View.past n S) m : Int) ≤ n + credit g m

variable {n cap c : Nat} {f : β → Bool} {x y : Core β} {g g' : Gate} {G H : Nat → Ghost β}
  {s b : Nat} {o : Option Nat} {v v' : View β} {m m' : Multiset (Actor β)} {S : Finset Nat}

theorem View.past_of (h : ∀ q ∈ S, v.Past n q) : v.past n S = 1 := if_pos h

theorem View.past_eq_zero (hS : S.Nonempty) (h : ∀ q, ¬ v.Past n q) : v.past n S = 0 := by
  obtain ⟨q, hq⟩ := hS
  exact if_neg fun hp => h q (hp q hq)

theorem View.past_mono {T : Finset Nat} (h : (∀ q ∈ S, v.Past n q) → ∀ q ∈ T, v'.Past n q) :
    v.past n S ≤ v'.past n T := by
  by_cases hp : ∀ q ∈ S, v.Past n q
  · rw [past_of hp, past_of (h hp)]
  · rw [past, if_neg hp]
    exact Nat.zero_le _

theorem View.past_le_napping (hS : S.Nonempty) (v : View β) : v.past n S ≤ v.napping := by
  unfold past
  split
  · rename_i h
    obtain ⟨q, hq⟩ := hS
    exact (h q hq).napping
  · exact Nat.zero_le _

theorem View.stuck_le_napping (v : View β) : v.stuck ≤ v.napping := by
  cases v with
  | acquiring i => exact le_rfl
  | _ => exact Nat.zero_le _

theorem tot_mono {E F : View β → Nat} (h : ∀ v, E v ≤ F v) (m : Multiset (Actor β)) :
    tot E m ≤ tot F m := Multiset.sum_map_le_sum_map _ _ fun a _ => h a.2

theorem credit_cons (v : View β) : credit g ((o, v) ::ₘ m) =
    v.weight + (tot View.owing m + tot View.adds m + tot View.stuck m) +
      g.semaphore.count.toInt := by
  simp only [credit, tot_cons, View.weight]
  push_cast
  omega

theorem untaken_le (hS : S ⊆ Finset.range n) (hle : ∀ q, (G q).Le (H q))
    (hc : claimed n H = claimed n G + c) : untaken S H ≤ untaken S G + c := by
  have hgrow (T : Finset Nat) : ∑ q ∈ T, (H q).values.length =
      ∑ q ∈ T, (G q).values.length + ∑ q ∈ T, ((H q).values.length - (G q).values.length) := by
    rw [← Finset.sum_add_distrib]
    refine Finset.sum_congr rfl fun q _ => ?_
    have := (hle q).values.length_le
    omega
  have hall : ∑ q ∈ Finset.range n, ((H q).values.length - (G q).values.length) = c := by
    have := hgrow (Finset.range n)
    simp only [claimed] at hc
    omega
  have hsome := Finset.sum_le_sum_of_subset (f := fun q =>
    (H q).values.length - (G q).values.length) hS
  calc untaken S H ≤ ∑ q ∈ S, (((G q).values.length - (G q).front) +
        ((H q).values.length - (G q).values.length)) := by
        refine Finset.sum_le_sum fun q _ => ?_
        have := (hle q).front
        omega
    _ = untaken S G + ∑ q ∈ S, ((H q).values.length - (G q).values.length) :=
        Finset.sum_add_distrib
    _ ≤ untaken S G + c := by omega

theorem Outweighed.keep (h : Outweighed n g G m) (hle : ∀ q, (G q).Le (H q))
    (hc : claimed n H = claimed n G + c)
    (hstep : ∀ S ⊆ Finset.range n, S.Nonempty →
      tot (View.past n S) m' + credit g m + c ≤ tot (View.past n S) m + credit g' m' ∨
        tot (View.past n S) m' ≤ credit g' m') : Outweighed n g' H m' := by
  refine ⟨fun S hS hne => ?_⟩
  have hleft := untaken_le hS hle hc
  rcases hstep S hS hne with hstep | hdone
  · rcases h.either S hS hne with he | he
    · exact .inl (by omega)
    · exact .inr (by omega)
  · exact .inl hdone

theorem Outweighed.move (h : Outweighed n g G ((o, v) ::ₘ m)) (hle : ∀ q, (G q).Le (H q))
    (hc : claimed n H = claimed n G + c)
    (hstep : ∀ S ⊆ Finset.range n, S.Nonempty →
      (v'.past n S + v.weight + c + g.semaphore.count.toInt : Int) ≤
        v.past n S + v'.weight + g'.semaphore.count.toInt) :
    Outweighed n g' H ((o, v') ::ₘ m) := by
  refine h.keep hle hc fun S hS hne => .inl ?_
  have := hstep S hS hne
  rw [credit_cons, credit_cons, tot_cons, tot_cons]
  push_cast
  omega

theorem Outweighed.work (h : Outweighed n g G ((o, v) ::ₘ m)) (hle : ∀ q, (G q).Le (H q))
    (hc : claimed n H = claimed n G + c) (hpast : ∀ q, ¬ v'.Past n q)
    (hstep : (v.weight + c + g.semaphore.count.toInt : Int) ≤
      v'.weight + g'.semaphore.count.toInt) : Outweighed n g' H ((o, v') ::ₘ m) := by
  refine h.move hle hc fun S _ hne => ?_
  rw [View.past_eq_zero hne hpast]
  omega

theorem View.napping_le_one (v : View β) : v.napping ≤ 1 := by
  cases v with
  | pop w d nap => exact Bool.toNat_le _
  | hold t b => exact Bool.toNat_le _
  | _ => simp [napping]

theorem Sound.napping_le (h : Sound n cap f x G s b m) : tot View.napping m ≤ n := by
  refine (tot_le_card fun a ha => ?_).trans h.card_le
  by_cases hz : 0 < a.2.napping
  · rw [h.napping a ha hz]
    exact a.2.napping_le_one
  · omega

theorem Sound.credit_nonneg (h : Sound n cap f x G s b m) : 0 ≤ credit x.gate m := by
  have := h.stuck_count
  simp only [credit]
  omega

/-- A notification brings a wakeup for each task that it is about, or else for each sleeper. -/
theorem Outweighed.look {limit : Nat} (h : Outweighed n x.gate G ((o, .look limit) ::ₘ m))
    (hs : Sound n cap f x G s b ((o, .look limit) ::ₘ m)) (hle : ∀ q, (G q).Le (H q))
    (hc : claimed n H = claimed n G + 0) (hpast : ∀ q, ¬ v'.Past n q)
    (hweight : v'.weight = min x.gate.sleepers limit) :
    Outweighed n x.gate H ((o, v') ::ₘ m) := by
  refine h.keep hle hc fun S _ hne => ?_
  have hothers := tot_mono (View.past_le_napping (n := n) hne) m
  have hsleepers := hs.sleepers
  have hstuck := hs.stuck_count
  have hlook : (View.look limit : View β).weight = limit := rfl
  rw [credit_cons, credit_cons, tot_cons, tot_cons, View.past_eq_zero hne hpast, hweight,
    View.past_eq_zero (v := .look limit) hne fun _ => id, hlook]
  simp only [tot_cons, View.napping, View.stuck] at hsleepers hstuck
  omega

theorem Outweighed.pass {w : Nat} (h : Outweighed n x.gate G ((o, v) ::ₘ m))
    (hs : Sound n cap f x G s b ((o, v) ::ₘ m)) (hle : ∀ q, (G q).Le (H q))
    (hc : claimed n H = claimed n G + 0)
    (hpast : ∀ q < n, v'.Past n q → v.Past n q ∨ q = w)
    (hempty : (G w).front = (G w).values.length) (hweight : v'.weight = v.weight)
    (hnap : v'.napping = v.napping) : Outweighed n x.gate H ((o, v') ::ₘ m) := by
  refine ⟨fun S hS hne => ?_⟩
  have hleft := untaken_le hS hle hc
  have herase : untaken (S.erase w) G = untaken S G := by
    rw [untaken, untaken, Finset.sum_erase]
    rw [hempty, Nat.sub_self]
  have hsame : credit x.gate ((o, v') ::ₘ m) = credit x.gate ((o, v) ::ₘ m) := by
    rw [credit_cons, credit_cons, hweight]
  have hpos := hs.credit_nonneg
  -- the queue just looked at has nothing left, so what was so of the others is enough
  by_cases he : (S.erase w).Nonempty
  · have hmono : tot (View.past n S) ((o, v') ::ₘ m) ≤
        tot (View.past n (S.erase w)) ((o, v) ::ₘ m) := by
      rw [tot_cons, tot_cons]
      refine Nat.add_le_add (View.past_mono fun hp q hq => ?_)
        (tot_mono (fun u => View.past_mono fun hp q hq => hp q (Finset.mem_of_mem_erase hq)) m)
      obtain ⟨hqw, hqS⟩ := Finset.mem_erase.1 hq
      exact (hpast q (Finset.mem_range.1 (hS hqS)) (hp q hqS)).resolve_right hqw
    rcases h.either _ ((Finset.erase_subset w S).trans hS) he with h | h
    · exact .inl (by omega)
    · exact .inr (by omega)
  · rw [Finset.not_nonempty_iff_eq_empty] at he
    have hzero : untaken S G = 0 := by rw [← herase, he, untaken, Finset.sum_empty]
    have hall := tot_mono (View.past_le_napping (n := n) hne) ((o, v') ::ₘ m)
    have hn := hs.napping_le
    simp only [tot_cons View.napping] at hn hall
    exact .inr (by omega)

theorem fits_rest (c : Int64) : Fits (c.toInt + 0) := by
  have := c.toInt_lt
  have := c.le_toInt
  constructor <;> omega

section Steps

variable {x' : Core β} {d : Deed β}

theorem Outweighed.step (h : Outweighed n x.gate G ((o, v) ::ₘ m))
    (hs : Sound n cap f x G s b ((o, v) ::ₘ m)) (hk : v.Knows cap G) (he : Effect n x v d x' v')
    (hle : ∀ q, (G q).Le (H q)) (hc : claimed n H = claimed n G + v'.claiming) (hn : n ≤ 2 ^ 63)
    (hb : claimed n H < 2 ^ 63)
    (hsight : ∀ w d i o r, v = .pop w d (some (i, o)) → v' = .recheck i (o + 1) →
      x.queues[w]? = some r → r.isEmpty) : Outweighed n x'.gate H ((o, v') ::ₘ m) := by
  cases he with
  | still he =>
    obtain ⟨h1, h2, h3, h4, h5, h6⟩ := he.gate
    refine h.move hle hc fun S hS _ => ?_
    have hpast : v'.past n S ≤ v.past n S :=
      View.past_mono fun hp q hq => he.past (Finset.mem_range.1 (hS hq)) (hp q hq)
    have howing := he.owing
    rw [he.claiming]
    simp only [View.weight]
    omega
  | declare => exact h.work hle hc (fun q ⟨y, hy, _⟩ => absurd hy (Nat.not_lt_zero y)) le_rfl
  | retract => exact h.work hle hc (fun _ => id) le_rfl
  | wake => exact h.work hle hc (fun _ => id) le_rfl
  | pass ha =>
    cases Semaphore.Wait.step ha (hs.fits_sub hn) with
    | pass hz hcount hp =>
      refine h.move hle hc fun S _ hne => ?_
      rw [View.past_of (v := .committed _) fun _ _ => trivial, View.past_eq_zero hne fun _ => id]
      simp only [View.weight, View.owing, View.adds, View.stuck, View.claiming, Core.setGate,
        Gate.setSemaphore]
      omega
  | sink ha =>
    cases Semaphore.Wait.step ha (hs.fits_sub hn) with
    | sink hz hcount hp =>
      refine h.move hle hc fun S _ _ => ?_
      rw [View.past_of (v := .committed _) fun _ _ => trivial,
        View.past_of (v := .acquiring _) fun _ _ => trivial]
      simp only [View.weight, View.owing, View.adds, View.stuck, View.claiming, Core.setGate,
        Gate.setSemaphore]
      omega
  | acquire ha =>
    cases Semaphore.Wait.step ha (fits_rest _) with
    | acquire hcount hp =>
      refine h.move hle hc fun S _ hne => ?_
      rw [View.past_of (v := .acquiring _) fun _ _ => trivial, View.past_eq_zero hne fun _ => id]
      simp only [View.weight, View.owing, View.adds, View.stuck, View.claiming, Core.setGate,
        Gate.setSemaphore, hcount]
      omega
  | lookNone hz => exact h.look hs hle hc (fun _ => id) hz.symm
  | lookSome hl =>
    refine h.look hs hle hc (fun _ => id) ?_
    simp only [View.weight, View.owing, View.adds, View.stuck]
    omega
  | add ha =>
    cases Semaphore.Post.step ha (hs.fits_add (by omega)) with
    | add hz hcount hp =>
      refine h.work hle hc (fun _ => id) ?_
      simp only [View.weight, View.owing, View.adds, View.stuck, View.claiming, Core.setGate,
        Gate.setSemaphore]
      omega
  | owe ha =>
    cases Semaphore.Post.step ha (hs.fits_add (by omega)) with
    | owe hz hcount hp =>
      refine h.work hle hc (fun _ => id) ?_
      simp only [View.weight, View.owing, View.adds, View.stuck, View.claiming, Core.setGate,
        Gate.setSemaphore]
      omega
  | release ha =>
    cases Semaphore.Post.step ha (fits_rest _) with
    | release hcount hp =>
      refine h.work hle hc (fun _ => id) ?_
      simp only [View.weight, View.owing, View.adds, View.stuck, View.claiming, Core.setGate,
        Gate.setSemaphore, hcount]
      omega
  | pushing hr ha =>
    obtain ⟨gw, hw, -⟩ := hs.push_step hk hr ha (by rintro _ _ _ ⟨⟩; exact hc ▸ hb)
    have h1 := hw.length_go
    have h2 := hw.length_claiming
    refine h.work hle hc (fun _ => id) ?_
    simp only [View.weight, View.owing, View.adds, View.stuck, View.claiming, Core.setQueue]
    omega
  | placed hr ha =>
    obtain ⟨gw, hw, -⟩ := hs.push_step hk hr ha (by rintro _ _ _ ⟨⟩)
    have h1 := hw.claims_ok
    refine h.work hle hc (fun _ => id) ?_
    simp only [View.weight, View.owing, View.adds, View.stuck, View.claiming, Core.setQueue]
    omega
  | refused hr ha | inline hr ha | full hr ha =>
    obtain ⟨gw, hw, -⟩ := hs.push_step hk hr ha (by rintro _ _ _ ⟨⟩)
    have h1 := hw.claims_error.1
    have hlook (t : β) : (Ring.Push.look t).claims = 0 ∧ (Ring.Push.look t).claiming = 0 :=
      ⟨rfl, rfl⟩
    refine h.work hle hc (fun _ => id) ?_
    simp only [View.weight, View.owing, View.adds, View.stuck, View.claiming, Core.setQueue, hlook]
    omega
  | @popping w nap r r' d d' hr ha =>
    refine h.move hle hc fun S _ _ => ?_
    have hpast : (View.pop w d' nap).past n S ≤ (View.pop w d nap).past n S :=
      View.past_mono fun hp q hq => by
        have := hp q hq
        cases nap <;> exact this
    simp only [View.weight, View.owing, View.adds, View.stuck, View.claiming, Core.setQueue]
    omega
  | missed hr ha => exact h.work hle hc (fun _ => id) le_rfl
  | passed hr ha =>
    have hempty := (hs.tracks hr).front_of_isEmpty (hsight _ _ _ _ _ rfl rfl hr)
    refine h.pass hs hle hc ?_ hempty rfl rfl
    rintro q - ⟨y, hy, hq⟩
    rcases Nat.lt_succ_iff_lt_or_eq.1 hy with hy | rfl
    · exact .inl ⟨y, hy, hq⟩
    · exact .inr hq.symm
  | hit hr ha => exact h.work hle hc (fun _ => id) le_rfl

end Steps

theorem outweighed_start : Outweighed n {} (fun _ => (Ghost.start : Ghost β)) 0 :=
  ⟨fun _ _ _ => .inl le_rfl⟩

theorem Outweighed.join (h : Outweighed n g G m) : Outweighed n g G ((o, .away) ::ₘ m) := by
  refine ⟨fun S hS hne => ?_⟩
  have hpast : tot (View.past n S) ((o, .away) ::ₘ m) = tot (View.past n S) m := by
    rw [tot_cons, View.past_eq_zero (v := .away) hne fun _ => id, Nat.zero_add]
  have hcredit : credit g ((o, .away) ::ₘ m) = credit g m := by
    rw [credit_cons]
    simp [credit, View.weight, View.owing, View.adds, View.stuck]
  rw [hpast, hcredit]
  exact h.either S hS hne

theorem sum_map_le {X : Type} {l : List X} {E : X → Nat} {F : Nat → Nat}
    (h : ∀ i x, l[i]? = some x → E x ≤ F i) : (l.map E).sum ≤ ∑ i ∈ Finset.range l.length, F i := by
  induction l generalizing F with
  | nil => exact Nat.zero_le _
  | cons x l ih =>
    have hx := h 0 x rfl
    have hl := ih (F := fun i => F (i + 1)) fun i y hy => h (i + 1) y hy
    rw [List.map_cons, List.sum_cons, List.length_cons, Finset.sum_range_succ']
    omega

theorem Sound.length_le (h : Sound n cap f x G s b m) (ho : Outweighed n x.gate G m)
    (hidle : ∀ a ∈ m, a.2.owing = 0 ∧ a.2.adds = 0 ∧ a.2.owes = 0)
    (hp : x.gate.semaphore.permits = 0) (hstuck : 0 < tot View.stuck m) :
    (x.queues.map fun r => r.length.toNat).sum + tot View.stuck m ≤ n := by
  have hzero {F : View β → Nat} (hF : ∀ a ∈ m, F a.2 = 0) : tot F m = 0 :=
    Multiset.sum_eq_zero fun k hk => by
      obtain ⟨a, ha, rfl⟩ := Multiset.mem_map.1 hk
      exact hF a ha
  have howing := hzero fun a ha => (hidle a ha).1
  have hadds := hzero fun a ha => (hidle a ha).2.1
  have howes := hzero fun a ha => (hidle a ha).2.2
  have hparked := h.parked
  have hpast : tot View.stuck m ≤ tot (View.past n (Finset.range n)) m :=
    tot_mono (fun v => by
      cases v with
      | acquiring i => exact (View.past_of (v := .acquiring i) fun _ _ => trivial).ge
      | _ => exact Nat.zero_le _) m
  have hne : (Finset.range n).Nonempty := by
    have hnap := (tot_mono View.stuck_le_napping m).trans h.napping_le
    exact Finset.nonempty_range_iff.2 (by omega)
  have hlength : (x.queues.map fun r => r.length.toNat).sum ≤ untaken (Finset.range n) G := by
    rw [← h.size]
    refine sum_map_le fun q r hr => ?_
    rw [(h.rings q r hr).length_toNat]
    exact Nat.min_le_left _ _
  have hcredit : credit x.gate m = 0 := by
    simp only [credit]
    omega
  -- all who sleep have looked at every queue, and there is no wakeup left for them
  rcases ho.either _ (Finset.Subset.refl _) hne with he | he
  · omega
  · omega

end WorkStealing.Pool
