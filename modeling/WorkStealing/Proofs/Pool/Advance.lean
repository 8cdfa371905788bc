import WorkStealing.Proofs.Pool.Sound

namespace WorkStealing.Pool

variable {β : Type}

/-- The balance after a step of a thread that is now about `v`, with ghosts that have only grown. -/
def Advanced (n cap : Nat) (f : β → Bool) (x : Core β) (G : Nat → Ghost β)
    (submitted begun : Nat) (o : Option Nat) (v : View β) (m : Multiset (Actor β)) : Prop :=
  ∃ H : Nat → Ghost β, (∀ q, (G q).Le (H q)) ∧
    Sound n cap f x H submitted begun ((o, v) ::ₘ m) ∧ v.Knows cap H ∧
    claimed n H = claimed n G + v.claiming

variable {n cap : Nat} {f : β → Bool} {x : Core β} {G : Nat → Ghost β}
  {submitted begun s b : Nat} {o : Option Nat} {v v' : View β} {m : Multiset (Actor β)}

theorem Sound.advanced (h : Sound n cap f x G submitted begun ((o, v) ::ₘ m)) (hk : v.Knows cap G)
    (hc : v.claiming = 0) : Advanced n cap f x G submitted begun o v m :=
  ⟨G, fun q => .refl _, h, hk, by omega⟩

section Queues

variable {w c : Nat} {r r' : Ring β} {gw : Ghost β} {t u : β} {single : Bool}
  {e e' : Ring.Push β} {d d' : Ring.Pop β} {nap : Option (Nat × Nat)} {pos : UInt64}

theorem sum_update (gw : Ghost β) (F : Ghost β → Nat) (hw : w < n) :
    (∑ q ∈ Finset.range n, F (Function.update G w gw q)) + F (G w) =
      (∑ q ∈ Finset.range n, F (G q)) + F gw := by
  have hmem : w ∈ Finset.range n := Finset.mem_range.2 hw
  have hrest : ∑ q ∈ (Finset.range n).erase w, F (Function.update G w gw q) =
      ∑ q ∈ (Finset.range n).erase w, F (G q) := by
    refine Finset.sum_congr rfl fun q hq => ?_
    rw [Function.update_of_ne (Finset.ne_of_mem_erase hq)]
  have h1 := Finset.add_sum_erase _ (fun q => F (G q)) hmem
  have h2 := Finset.add_sum_erase _ (fun q => F (Function.update G w gw q)) hmem
  simp only [Function.update_self] at h2
  omega

theorem le_update (h : (G w).Le gw) (q : Nat) : (G q).Le (Function.update G w gw q) := by
  by_cases hq : q = w
  · subst hq
    simpa using h
  · rw [Function.update_of_ne hq]
    exact .refl _

theorem length_le_claimed (hw : w < n) : (G w).values.length ≤ claimed n G :=
  Finset.single_le_sum (f := fun q => (G q).values.length) (fun _ _ => Nat.zero_le _)
    (Finset.mem_range.2 hw)

structure Grown (n cap : Nat) (f : β → Bool) (x : Core β) (G : Nat → Ghost β)
    (submitted settled w : Nat) (gw : Ghost β) (o : Option Nat) (v : View β)
    (m : Multiset (Actor β)) : Prop where
  le : (G w).Le gw
  firm : Firm n cap f x (Function.update G w gw) submitted settled ((o, v) ::ₘ m)
  knows : v.Knows cap (Function.update G w gw)

theorem claimed_update {k : Nat} (hw : w < n) (h : gw.values.length = (G w).values.length + k) :
    claimed n (Function.update G w gw) = claimed n G + k := by
  have := sum_update (G := G) gw (fun g => g.values.length) hw
  simp only [claimed]
  omega

theorem Firm.lt (h : Firm n cap f x G submitted begun m) (hr : x.queues[w]? = some r) :
    w < n := by
  obtain ⟨hlt, -⟩ := List.getElem?_eq_some_iff.1 hr
  exact h.size ▸ hlt

theorem Firm.tracks (h : Firm n cap f x G submitted begun ((o, v) ::ₘ m))
    (hr : x.queues[w]? = some r) :
    r.Tracks cap (G w) (v.stake w + fun hd => tot (fun u => u.stake w hd) m) := by
  have hm : (v.stake w + fun hd => tot (fun u => u.stake w hd) m) =
      fun hd => tot (fun u => u.stake w hd) ((o, v) ::ₘ m) := by
    funext hd
    simp
  rw [hm]
  exact h.rings w r hr

theorem Firm.turn (h : Firm n cap f x G submitted begun ((o, v) ::ₘ m)) (v' : View β)
    (hr : x.queues[w]? = some r)
    (htracks : r'.Tracks cap gw (v'.stake w + fun hd => tot (fun u => u.stake w hd) m))
    (hv : ∀ q, q ≠ w → v.stake q = 0) (hv' : ∀ q, q ≠ w → v'.stake q = 0)
    (hnap : v'.napping = v.napping)
    (hkept : s + begun + v.inHand f + v.inPlay f + (G w).stock f =
      submitted + b + v'.inHand f + v'.inPlay f + gw.stock f) :
    Firm n cap f (x.setQueue w r') (Function.update G w gw) s b ((o, v') ::ₘ m) := by
  have hw := h.lt hr
  have hstock := sum_update (G := G) gw (fun g => g.stock f) hw
  refine ⟨?_, fun q t ht => ?_, ?_, ?_⟩
  · simpa [Core.setQueue] using h.size
  · simp only [Core.setQueue] at ht
    by_cases hq : q = w
    · subst hq
      obtain rfl : r' = t := by
        rw [List.getElem?_set_self (h.size.symm ▸ hw)] at ht
        simpa using ht
      rw [Function.update_self]
      convert htracks using 1
      funext hd
      simp
    · rw [List.getElem?_set_ne (Ne.symm hq)] at ht
      rw [Function.update_of_ne hq, tot_stake (hv' q hq), ← tot_stake (hv q hq)]
      exact h.rings q t ht
  · have := h.sleepers
    simp only [tot_cons, Core.setQueue] at this ⊢
    omega
  · have := h.kept
    simp only [tot_cons, stocked] at this hstock ⊢
    omega

theorem Firm.push_step (h : Firm n cap f x G submitted begun ((o, .push t w e c single) ::ₘ m))
    (hk : e.Knows cap (G w) t) (hr : x.queues[w]? = some r)
    {a : Move (Ring β) (Ring.Push β) (Except β UInt64)} (ha : a ∈ e.moves r)
    (hb : ∀ t w pos, a = .go t (.write w pos) → claimed n G + 1 < 2 ^ 63) :
    ∃ gw, e.Step r (G w) t a gw ∧ (G w).Le gw ∧
      a.state.Tracks cap gw (a.share Ring.Push.share + fun hd => tot (fun u => u.stake w hd) m) ∧
      ∀ t' f, a = .go t' f → f.Knows cap gw t := by
  have ht := h.tracks hr
  rw [View.stake_push] at ht
  refine Ring.Push.step ht hk ha fun t w' pos he => ?_
  have := hb t w' pos he
  have := length_le_claimed (G := G) (h.lt hr)
  omega

theorem Firm.pop_step (h : Firm n cap f x G submitted begun ((o, .pop w d nap) ::ₘ m))
    (hk : d.Knows (G w)) (hr : x.queues[w]? = some r)
    {a : Move (Ring β) (Ring.Pop β) (Option (UInt64 × β))} (ha : a ∈ d.moves r) :
    ∃ gw, d.Step r (G w) a gw ∧ (G w).Le gw ∧
      a.state.Tracks cap gw (a.share Ring.Pop.share + fun hd => tot (fun u => u.stake w hd) m) ∧
      ∀ t e, a = .go t e → e.Knows gw := by
  have ht := h.tracks hr
  rw [View.stake_pop] at ht
  exact Ring.Pop.step ht hk ha

theorem Firm.pushing (h : Firm n cap f x G submitted begun ((o, .push t w e c single) ::ₘ m))
    (hk : e.Knows cap (G w) t) (hr : x.queues[w]? = some r) (ha : .go r' e' ∈ e.moves r)
    (hb : claimed n G + e'.claiming < 2 ^ 63) : ∃ gw, e.Step r (G w) t (.go r' e') gw ∧
      Grown n cap f (x.setQueue w r') G submitted begun w gw o (.push t w e' c single) m := by
  obtain ⟨gw, hs, hle, ht, hkn⟩ := h.push_step hk hr ha (by rintro _ _ _ ⟨⟩; exact hb)
  have hstock := hs.stock_go (f := f) (h.tracks hr).lt_of_stage
  refine ⟨gw, hs, hle, h.turn _ hr ?_ ?_ ?_ rfl ?_, ?_⟩
  · rw [View.stake_push]
    exact ht
  · exact fun q hq => if_neg (Ne.symm hq)
  · exact fun q hq => if_neg (Ne.symm hq)
  · simp only [View.inHand, View.inPlay]
    omega
  · simpa [View.Knows] using hkn r' e' rfl

theorem Firm.placed (h : Firm n cap f x G submitted begun ((o, .push t w e c single) ::ₘ m))
    (hk : e.Knows cap (G w) t) (hr : x.queues[w]? = some r) (ha : .done r' (.ok pos) ∈ e.moves r) :
    ∃ gw, e.Step r (G w) t (.done r' (.ok pos)) gw ∧
      Grown n cap f (x.setQueue w r') G
        (submitted + (if single then Deed.none else .submitted t).submits f) begun w gw o
        (.placed (c + 1)) m := by
  obtain ⟨gw, hs, hle, ht, -⟩ := h.push_step hk hr ha (by rintro _ _ _ ⟨⟩)
  have hstock := hs.stock_ok (f := f) (h.tracks hr).lt_of_stage
  refine ⟨gw, hs, hle, h.turn _ hr ht ?_ ?_ rfl ?_, trivial⟩
  · exact fun q hq => if_neg (Ne.symm hq)
  · exact fun q hq => rfl
  · cases single <;> simp [View.inHand, View.inPlay, Deed.submits, hstock] <;> omega

theorem Firm.refused (h : Firm n cap f x G submitted begun ((o, .push t w e c single) ::ₘ m))
    (hk : e.Knows cap (G w) t) (hr : x.queues[w]? = some r) (ha : .done r' (.error u) ∈ e.moves r)
    (hv : v'.stake = fun _ => 0) (hnap : v'.napping = 0) (hknows : ∀ H, v'.Knows cap H)
    (hkept : v'.inHand f + v'.inPlay f = (single && f u).toNat) :
    ∃ gw, e.Step r (G w) t (.done r' (.error u)) gw ∧
      Grown n cap f (x.setQueue w r') G submitted begun w gw o v' m := by
  obtain ⟨gw, hs, hle, ht, -⟩ := h.push_step hk hr ha (by rintro _ _ _ ⟨⟩)
  obtain ⟨-, rfl⟩ := hs.claims_error
  have hstock := hs.stock_error (f := f)
  refine ⟨gw, hs, hle, h.turn _ hr ?_ ?_ ?_ hnap ?_, hknows _⟩
  · rw [congrFun hv w]
    exact ht
  · exact fun q hq => if_neg (Ne.symm hq)
  · exact fun q _ => congrFun hv q
  · change _ + 0 + (single && f u).toNat + _ = _
    omega

theorem Firm.popping (h : Firm n cap f x G submitted begun ((o, .pop w d nap) ::ₘ m))
    (hk : d.Knows (G w)) (hr : x.queues[w]? = some r) (ha : .go r' d' ∈ d.moves r) :
    ∃ gw, d.Step r (G w) (.go r' d') gw ∧
      Grown n cap f (x.setQueue w r') G submitted begun w gw o (.pop w d' nap) m := by
  obtain ⟨gw, hs, hle, ht, hkn⟩ := h.pop_step hk hr ha
  have hstock := hs.stock_go (f := f) (h.tracks hr).lt_of_stage
  refine ⟨gw, hs, hle, h.turn _ hr ?_ ?_ ?_ rfl ?_, ?_⟩
  · rw [View.stake_pop]
    exact ht
  · exact fun q hq => if_neg (Ne.symm hq)
  · exact fun q hq => if_neg (Ne.symm hq)
  · simp only [View.inHand, View.inPlay]
    omega
  · simpa [View.Knows] using hkn r' d' rfl

theorem Firm.hit (h : Firm n cap f x G submitted begun ((o, .pop w d nap) ::ₘ m))
    (hk : d.Knows (G w)) (hr : x.queues[w]? = some r)
    (ha : .done r' (some (pos, t)) ∈ d.moves r) : ∃ gw, d.Step r (G w) (.done r' (some (pos, t))) gw ∧
      Grown n cap f (x.setQueue w r') G submitted begun w gw o (.hold t nap.isSome) m := by
  obtain ⟨gw, hs, hle, ht, -⟩ := h.pop_step hk hr ha
  have hstock := hs.stock_some (f := f) (h.tracks hr).lt_of_stage
  refine ⟨gw, hs, hle, h.turn _ hr ht ?_ ?_ rfl ?_, trivial⟩
  · exact fun q hq => if_neg (Ne.symm hq)
  · exact fun q hq => rfl
  · simp only [View.inHand, View.inPlay]
    omega

theorem Firm.missed (h : Firm n cap f x G submitted begun ((o, .pop w d nap) ::ₘ m))
    (hk : d.Knows (G w)) (hr : x.queues[w]? = some r) (ha : .done r' none ∈ d.moves r)
    (hv : v'.stake = fun _ => 0) (hnap : v'.napping = nap.isSome.toNat)
    (hknows : ∀ H, v'.Knows cap H) (hkept : v'.inHand f + v'.inPlay f = 0) :
    Grown n cap f (x.setQueue w r') G submitted begun w (G w) o v' m ∧
      r'.Tracks cap (G w) (fun hd => tot (fun u => u.stake w hd) m) ∧
      ((G w).stage (G w).front).rank < 3 := by
  obtain ⟨gw, hs, hle, ht, -⟩ := h.pop_step hk hr ha
  obtain ⟨rfl, hrank⟩ := hs.eq_of_none
  refine ⟨⟨hle, h.turn _ hr ?_ ?_ ?_ hnap ?_, hknows _⟩, ?_, hrank⟩
  · rw [congrFun hv w]
    exact ht
  · exact fun q hq => if_neg (Ne.symm hq)
  · exact fun q _ => congrFun hv q
  · change _ + 0 + 0 + _ = _
    omega
  · rwa [Move.share, zero_add] at ht

theorem Sound.turn (h : Sound n cap f x G submitted begun ((o, v) ::ₘ m))
    (hr : x.queues[w]? = some r) (hg : Grown n cap f (x.setQueue w r') G s b w gw o v' m)
    (hgate : v.stuck = 0 ∧ v'.stuck = 0 ∧ v.adds = 0 ∧ v'.adds = 0 ∧ v.owes = 0 ∧ v'.owes = 0)
    (hnap : v'.napping = v.napping) (howing : v.owing ≤ v'.owing)
    (hfunded : v'.owing + (G w).values.length ≤ v.owing + gw.values.length)
    (hpast : ∀ q < n, v'.Past n q → v.Past n q ∨ (q = w ∧
      (gw.front < gw.values.length → ∃ a ∈ m, 0 < a.2.owing)))
    (hlen : gw.front < gw.values.length → (G w).front < (G w).values.length ∨ 0 < v'.owing)
    (hclaiming : gw.values.length = (G w).values.length + v'.claiming) :
    Advanced n cap f (x.setQueue w r') G s b o v' m := by
  obtain ⟨g1, g2, g3, g4, g5, g6⟩ := hgate
  have hclaimed := claimed_update (h.lt hr) hclaiming
  have hstuck := h.stuck_count
  have hpos (hp : 0 < v'.owing ∨ ∃ a ∈ m, 0 < a.2.owing) :
      0 < credit x.gate ((o, v') ::ₘ m) := by
    have : 0 < v'.owing + tot View.owing m := by
      rcases hp with hp | ⟨a, ha, hp⟩
      · omega
      · have := le_tot (F := View.owing) ha
        omega
    simp only [credit, tot_cons] at hstuck ⊢
    omega
  refine ⟨Function.update G w gw, le_update hg.le, ?_, hg.knows, hclaimed⟩
  refine ⟨hg.firm, h.toRoster.turn fun hn => h.isSome (hnap ▸ hn), h.running, ?_, ?_, ?_⟩
  · have := h.parked
    simp only [tot_cons, Core.setQueue] at this ⊢
    omega
  · have := h.funded
    simp only [tot_cons, Core.setQueue] at this ⊢
    omega
  · refine h.noticed_step (fun q hq hp hl => ?_) (fun q hq hl => ?_) fun q _ _ hc => ?_
    · rcases hpast q hq hp with hp | ⟨rfl, hp⟩
      · exact .inl hp
      · rw [Function.update_self] at hl
        exact .inr (hpos (.inr (hp hl)))
    · by_cases he : q = w
      · subst he
        rw [Function.update_self] at hl
        exact (hlen hl).imp id fun hp => hpos (.inl hp)
      · rw [Function.update_of_ne he] at hl
        exact .inl hl
    · exact credit_pos hc (by dsimp only [Core.setQueue]; omega)

theorem Sound.pushing (h : Sound n cap f x G submitted begun ((o, .push t w e c single) ::ₘ m))
    (hk : e.Knows cap (G w) t) (hr : x.queues[w]? = some r) (ha : .go r' e' ∈ e.moves r)
    (hb : claimed n G + e'.claiming < 2 ^ 63) :
    Advanced n cap f (x.setQueue w r') G submitted begun o (.push t w e' c single) m := by
  obtain ⟨gw, hs, hg⟩ := h.toFirm.pushing hk hr ha hb
  have hlen := hs.length_go
  have hfront := hs.front
  have hmono := hg.le.values.length_le
  refine h.turn hr hg ?_ rfl ?_ ?_ ?_ ?_ hs.length_claiming
  · simp [View.stuck, View.adds, View.owes]
  · simp only [View.owing]
    omega
  · simp only [View.owing]
    omega
  · exact fun q _ hp => hp.elim
  · simp only [View.owing]
    omega

theorem Sound.placed (h : Sound n cap f x G submitted begun ((o, .push t w e c single) ::ₘ m))
    (hk : e.Knows cap (G w) t) (hr : x.queues[w]? = some r) (ha : .done r' (.ok pos) ∈ e.moves r) :
    Advanced n cap f (x.setQueue w r') G
      (submitted + (if single then Deed.none else .submitted t).submits f) begun o
      (.placed (c + 1)) m := by
  obtain ⟨gw, hs, hg⟩ := h.toFirm.placed hk hr ha
  have hlen := hs.length_done
  have hclaims := hs.claims_ok
  have hfront := hs.front
  refine h.turn hr hg ?_ rfl ?_ ?_ ?_ ?_ hlen
  · simp [View.stuck, View.adds, View.owes]
  · simp only [View.owing]
    omega
  · simp only [View.owing]
    omega
  · exact fun q _ hp => hp.elim
  · simp only [View.owing]
    omega

theorem Sound.refused (h : Sound n cap f x G submitted begun ((o, .push t w e c single) ::ₘ m))
    (hk : e.Knows cap (G w) t) (hr : x.queues[w]? = some r) (ha : .done r' (.error u) ∈ e.moves r)
    (hv : v'.stake = fun _ => 0)
    (hgate : v'.stuck = 0 ∧ v'.adds = 0 ∧ v'.owes = 0 ∧ v'.napping = 0 ∧ v'.claiming = 0)
    (howing : v'.owing = c) (hpast : ∀ q, ¬ v'.Past n q) (hknows : ∀ H, v'.Knows cap H)
    (hkept : v'.inHand f + v'.inPlay f = (single && f u).toNat) :
    Advanced n cap f (x.setQueue w r') G submitted begun o v' m := by
  obtain ⟨g1, g2, g3, g4, g5⟩ := hgate
  obtain ⟨gw, hs, hg⟩ := h.toFirm.refused hk hr ha hv g4 hknows hkept
  obtain ⟨hclaims, -⟩ := hs.claims_error
  have hlen := hs.length_done
  have hfront := hs.front
  refine h.turn hr hg ⟨rfl, g1, rfl, g2, rfl, g3⟩ g4 ?_ ?_ ?_ ?_ (by omega)
  · change e.claims + c ≤ _
    omega
  · change _ ≤ e.claims + c + _
    omega
  · exact fun q _ hp => (hpast q hp).elim
  · omega

theorem Sound.popping (h : Sound n cap f x G submitted begun ((o, .pop w d nap) ::ₘ m))
    (hk : d.Knows (G w)) (hr : x.queues[w]? = some r) (ha : .go r' d' ∈ d.moves r) :
    Advanced n cap f (x.setQueue w r') G submitted begun o (.pop w d' nap) m := by
  obtain ⟨gw, hs, hg⟩ := h.toFirm.popping hk hr ha
  have hlen := hs.length
  have hfront := hs.front_le
  refine h.turn hr hg ?_ rfl le_rfl ?_ ?_ ?_ hlen
  · simp [View.stuck, View.adds, View.owes]
  · simp only [View.owing]
    omega
  · exact fun q _ hp => .inl (by cases nap <;> exact hp)
  · omega

theorem Sound.hit (h : Sound n cap f x G submitted begun ((o, .pop w d nap) ::ₘ m))
    (hk : d.Knows (G w)) (hr : x.queues[w]? = some r)
    (ha : .done r' (some (pos, t)) ∈ d.moves r) :
    Advanced n cap f (x.setQueue w r') G submitted begun o (.hold t nap.isSome) m := by
  obtain ⟨gw, hs, hg⟩ := h.toFirm.hit hk hr ha
  have hlen := hs.length
  have hfront := hs.front_le
  refine h.turn hr hg ?_ rfl le_rfl ?_ ?_ ?_ hlen
  · simp [View.stuck, View.adds, View.owes]
  · simp only [View.owing]
    omega
  · exact fun q _ hp => hp.elim
  · omega

theorem View.owing_pos {v : View β} {q p : Nat} {s : Stage} (hs : s = .claimed ∨ s = .written)
    (h : 0 < v.stake q (s, p)) : 0 < v.owing := by
  cases v with
  | push t w e c single =>
    have : 0 < e.claims := by
      by_contra hc
      cases e <;> simp [Ring.Push.claims] at hc <;> simp [View.stake, Ring.Push.share] at h
    exact Nat.lt_of_lt_of_le this (Nat.le_add_right _ _)
  | pop w d nap =>
    exfalso
    by_cases hw : w = q <;> simp only [View.stake, hw, if_true, if_false, Pi.zero_apply] at h
    · cases d <;> rcases hs with rfl | rfl <;>
        simp [Ring.Pop.share, holding_apply] at h
    · omega
  | _ => simp [View.stake] at h

/-- A claimed value that cannot be seen yet has a producer that will tell sleepers. -/
theorem exists_owing (ht : r.Tracks cap gw fun hd => tot (fun u => u.stake w hd) m)
    (hf : gw.front < gw.values.length) (hs : (gw.stage gw.front).rank < 3) :
    ∃ a ∈ m, 0 < a.2.owing := by
  have hpos := (ht.claimed_iff _).1 hf
  have hstage : gw.stage gw.front = .claimed ∨ gw.stage gw.front = .written := by
    cases he : gw.stage gw.front <;> simp [he, Stage.rank] at hs hpos ⊢
  have hbusy : (gw.stage gw.front).Busy := hstage.elim .inl fun h => .inr (.inl h)
  have hheld := ht.held _ gw.front hbusy
  rw [if_pos rfl] at hheld
  obtain ⟨a, ha, hp⟩ := exists_of_tot (hheld.symm ▸ Nat.one_pos)
  exact ⟨a, ha, View.owing_pos hstage hp⟩

theorem isEmpty_of_missed (ht : r.Tracks cap gw fun hd => tot (fun u => u.stake w hd) m)
    (hs : (gw.stage gw.front).rank < 3) (hm : ∀ a ∈ m, a.2.owing = 0) : r.isEmpty := by
  have hnot : ¬ gw.front < gw.values.length := fun hf => by
    obtain ⟨a, ha, hp⟩ := exists_owing ht hf hs
    have := hm a ha
    omega
  have hle := ht.front_le
  exact Ring.isEmpty_of_eq (by rw [ht.front, ht.back, show gw.front = gw.values.length by omega])

theorem Sound.missed (h : Sound n cap f x G submitted begun ((o, .pop w d nap) ::ₘ m))
    (hk : d.Knows (G w)) (hr : x.queues[w]? = some r) (ha : .done r' none ∈ d.moves r)
    (hv : v'.stake = fun _ => 0)
    (hgate : v'.stuck = 0 ∧ v'.adds = 0 ∧ v'.owes = 0 ∧ v'.owing = 0)
    (hnap : v'.napping = nap.isSome.toNat)
    (hpast : ∀ q < n, v'.Past n q → (View.pop w d nap).Past n q ∨ q = w)
    (hclaiming : v'.claiming = 0) (hknows : ∀ H, v'.Knows cap H)
    (hkept : v'.inHand f + v'.inPlay f = 0) :
    Advanced n cap f (x.setQueue w r') G submitted begun o v' m := by
  obtain ⟨hg, ht, hrank⟩ := h.toFirm.missed hk hr ha hv hnap hknows hkept
  obtain ⟨g1, g2, g3, g4⟩ := hgate
  refine h.turn hr hg ⟨rfl, g1, rfl, g2, rfl, g3⟩ hnap (Nat.zero_le _) ?_ ?_ .inl (by omega)
  · change _ ≤ 0 + _
    omega
  · intro q hq hp
    rcases hpast q hq hp with hp | rfl
    · exact .inl hp
    · exact .inr ⟨rfl, fun hl => exists_owing ht hl hrank⟩

end Queues

/-- How many tasks of a kind a step puts into queue `q`, by what the thread is about before it and
after it. -/
def View.puts (f : β → Bool) (q : Nat) : View β → View β → Nat
  | .push t w _ _ _, .placed _ => if w = q then (f t).toNat else 0
  | _, _ => 0

def View.gets (f : β → Bool) (q : Nat) : View β → View β → Nat
  | .pop w _ _, .hold t _ => if w = q then (f t).toNat else 0
  | _, _ => 0

theorem Still.flow {d : Deed β} (h : Still n v d v') (q : Nat) :
    v.gets f q v' = v.puts f q v' := by
  cases h <;> rfl

/-- What is left of `Advanced` whatever becomes of the workers, and what the step from `v` to `v'`
does to each queue. -/
def Carried (n cap : Nat) (f : β → Bool) (x : Core β) (G : Nat → Ghost β)
    (submitted settled : Nat) (o : Option Nat) (v v' : View β) (m : Multiset (Actor β)) : Prop :=
  ∃ H : Nat → Ghost β, (∀ q, (G q).Le (H q)) ∧
    Firm n cap f x H submitted settled ((o, v') ::ₘ m) ∧ v'.Knows cap H ∧
    claimed n H = claimed n G + v'.claiming ∧
    ∀ q, (H q).stock f + v.gets f q v' = (G q).stock f + v.puts f q v'

theorem Firm.carried (h : Firm n cap f x G submitted begun ((o, v') ::ₘ m)) (hk : v'.Knows cap G)
    (hc : v'.claiming = 0) (hflow : ∀ q, v.gets f q v' = v.puts f q v') :
    Carried n cap f x G submitted begun o v v' m :=
  ⟨G, fun q => .refl _, h, hk, by omega, fun q => by rw [hflow q]⟩

theorem Grown.carried {w : Nat} {gw : Ghost β} (h : Grown n cap f x G submitted begun w gw o v' m)
    (hw : w < n) (hlen : gw.values.length = (G w).values.length + v'.claiming)
    (hflow : gw.stock f + v.gets f w v' = (G w).stock f + v.puts f w v')
    (hrest : ∀ q, q ≠ w → v.gets f q v' = v.puts f q v') :
    Carried n cap f x G submitted begun o v v' m := by
  refine ⟨Function.update G w gw, le_update h.le, h.firm, h.knows, claimed_update hw hlen,
    fun q => ?_⟩
  by_cases hq : q = w
  · subst hq
    rw [Function.update_self]
    exact hflow
  · rw [Function.update_of_ne hq, hrest q hq]

theorem Firm.step {x' : Core β} {d : Deed β}
    (h : Firm n cap f x G submitted begun ((o, v) ::ₘ m)) (hk : v.Knows cap G)
    (he : Effect n x v d x' v') (hb : claimed n G + v'.claiming < 2 ^ 63) :
    Carried n cap f x' G (submitted + d.submits f) (begun + d.settles f) o v v' m := by
  have calm {v v' : View β} {g : Gate} (h : Firm n cap f x G submitted begun ((o, v) ::ₘ m))
      (hv : v.stake = (fun _ _ => 0) ∧ v'.stake = fun _ _ => 0)
      (hnap : g.sleepers + v.napping = x.gate.sleepers + v'.napping)
      (hidle : v.inHand f + v.inPlay f = v'.inHand f + v'.inPlay f)
      (hk : v'.Knows cap G) (hc : v'.claiming = 0) (hflow : ∀ q, v.gets f q v' = v.puts f q v') :
      Carried n cap f (x.setGate g) G submitted begun o v v' m :=
    (h.calm g (congrFun hv.1) (congrFun hv.2) hnap (by omega)).carried hk hc hflow
  cases he with
  | still hs => exact (h.still hs).carried hs.knows hs.claiming hs.flow
  | declare => exact calm h ⟨rfl, rfl⟩ rfl rfl trivial rfl fun _ => rfl
  | @retract t =>
    have hv' (q : Nat) : (View.hold t false).stake q = 0 := rfl
    exact (h.leave (fun _ => rfl) hv' ⟨rfl, rfl⟩ ⟨rfl, rfl⟩).carried trivial rfl fun _ => rfl
  | wake =>
    have hv' (q : Nat) : (View.away : View β).stake q = 0 := rfl
    exact (h.leave (fun _ => rfl) hv' ⟨rfl, rfl⟩ ⟨rfl, rfl⟩).carried trivial rfl fun _ => rfl
  | lookNone hz => exact calm (g := x.gate) h ⟨rfl, rfl⟩ rfl rfl trivial rfl fun _ => rfl
  | lookSome hs => exact calm (g := x.gate) h ⟨rfl, rfl⟩ rfl rfl trivial rfl fun _ => rfl
  | pushing hr ha =>
    obtain ⟨gw, hs, hg⟩ := h.pushing hk hr ha hb
    exact hg.carried (h.lt hr) hs.length_claiming (hs.stock_go (h.tracks hr).lt_of_stage)
      fun _ _ => rfl
  | @placed t w c single _ _ e _ hr ha =>
    obtain ⟨gw, hs, hg⟩ := h.placed hk hr ha
    have hputs (q : Nat) : (View.push t w e c single).puts f q (.placed (c + 1)) =
      if w = q then (f t).toNat else 0 := rfl
    have hcarried := hg.carried (v := .push t w e c single) (h.lt hr) hs.length_done ?_ ?_
    · convert hcarried using 1
      split <;> rfl
    · rw [hputs, if_pos rfl]
      exact hs.stock_ok (h.tracks hr).lt_of_stage
    · exact fun q hq => (if_neg (Ne.symm hq)).symm
  | refused hr ha =>
    obtain ⟨gw, hs, hg⟩ := h.refused hk hr ha (View.stake_look _ _ _ _) rfl (fun _ => rfl)
      (Nat.zero_add _)
    exact hg.carried (h.lt hr) hs.length_done hs.stock_error fun _ _ => rfl
  | @inline _ u _ _ _ _ hr ha =>
    have hv : (View.hold u false).stake = fun _ => 0 := rfl
    obtain ⟨gw, hs, hg⟩ := h.refused hk hr ha hv rfl (fun _ => trivial) rfl
    exact hg.carried (h.lt hr) hs.length_done hs.stock_error fun _ _ => rfl
  | @full _ _ _ c _ _ _ hr ha =>
    have hv : (View.look c : View β).stake = fun _ => 0 := rfl
    obtain ⟨gw, hs, hg⟩ := h.refused hk hr ha hv rfl (fun _ => trivial) rfl
    exact hg.carried (h.lt hr) hs.length_done hs.stock_error fun _ _ => rfl
  | popping hr ha =>
    obtain ⟨gw, hs, hg⟩ := h.popping hk hr ha
    exact hg.carried (h.lt hr) hs.length (hs.stock_go (h.tracks hr).lt_of_stage) fun _ _ => rfl
  | missed hr ha =>
    have hv : (View.away : View β).stake = fun _ => 0 := rfl
    exact (h.missed hk hr ha hv rfl (fun _ => trivial) rfl).1.carried (h.lt hr) rfl rfl fun _ _ => rfl
  | @passed i o _ _ _ hr ha =>
    have hv : (View.recheck i (o + 1) : View β).stake = fun _ => 0 := rfl
    exact (h.missed hk hr ha hv rfl (fun _ => trivial) rfl).1.carried (h.lt hr) rfl rfl fun _ _ => rfl
  | @hit w _ t _ _ _ _ hr ha =>
    obtain ⟨gw, hs, hg⟩ := h.hit hk hr ha
    refine hg.carried (h.lt hr) hs.length ?_ fun q hq => if_neg (Ne.symm hq)
    rw [View.gets, if_pos rfl]
    exact hs.stock_some (h.tracks hr).lt_of_stage
  | _ => exact calm h ⟨rfl, rfl⟩ rfl rfl trivial rfl fun _ => rfl

theorem View.Fresh.empty {v : View β} (h : v.Fresh) (cap : Nat) (f : β → Bool) :
    v.stake = (fun _ => 0) ∧ v.napping = 0 ∧ (∀ H : Nat → Ghost β, v.Knows cap H) ∧
      v.inHand f + v.inPlay f = 0 ∧ v.claiming = 0 := by
  rcases h with rfl | ⟨w, rfl⟩
  · exact ⟨rfl, rfl, fun _ => trivial, rfl, rfl⟩
  · exact ⟨funext fun q => ite_self _, rfl, fun _ => trivial, rfl, rfl⟩

theorem View.Fresh.flow {v' : View β} (h : v'.Fresh) (v : View β) (q : Nat) :
    v.gets f q v' = 0 ∧ v.puts f q v' = 0 := by
  rcases h with rfl | ⟨w, rfl⟩ <;> cases v <;> exact ⟨rfl, rfl⟩

theorem Firm.shift {x' : Core β} {d : Deed β}
    (h : Firm n cap f x G submitted begun ((o, v) ::ₘ m)) (hk : v.Knows cap G)
    (he : Shift n x v d x' v') (hb : claimed n G + v'.claiming < 2 ^ 63) :
    Carried n cap f x' G (submitted + d.submits f) (begun + d.settles f) o v v' m := by
  cases he with
  | serve he => exact h.step hk he hb
  | call limit =>
    have hv' (q : Nat) : (View.look limit : View β).stake q = 0 := rfl
    exact (h.calm x.gate (fun _ => rfl) hv' rfl rfl).carried trivial rfl fun _ => rfl
  | next hr ha hv =>
    obtain ⟨hstake, hnap, hknows, hidle, hclaiming⟩ := hv.empty cap f
    obtain ⟨hg, -⟩ := h.missed hk hr ha hstake hnap hknows hidle
    refine hg.carried (h.lt hr) (by omega) ?_ fun q _ => ?_
    · rw [(hv.flow _ _).1, (hv.flow _ _).2]
    · rw [(hv.flow _ q).1, (hv.flow _ q).2]
  | discard t hv =>
    obtain ⟨hstake, hnap, hknows, hidle, hclaiming⟩ := hv.empty cap f
    have hhand : (View.hold t false).inHand f = (f t).toNat := rfl
    have hplay : (View.hold t false).inPlay f = 0 := rfl
    refine (h.calm x.gate (fun _ => rfl) (congrFun hstake) ?_ ?_).carried (hknows G) hclaiming ?_
    · rw [hnap]
      rfl
    · simp only [Deed.submits, Deed.settles]
      omega
    · exact fun _ => rfl

theorem Firm.setPhase (h : Firm n cap f x G submitted begun m) (i : Nat) (a : Phase) :
    Firm n cap f (x.setPhase i a) G submitted begun m := ⟨h.size, h.rings, h.sleepers, h.kept⟩

theorem Sound.step {x' : Core β} {d : Deed β}
    (h : Sound n cap f x G submitted begun ((o, v) ::ₘ m)) (hk : v.Knows cap G)
    (he : Effect n x v d x' v') (ho : 0 < v'.napping → o.isSome) (hn : n ≤ 2 ^ 63)
    (hb : claimed n G + v'.claiming < 2 ^ 63) :
    Advanced n cap f x' G (submitted + d.submits f) (begun + d.begins f) o v' m := by
  cases he with
  | still hs => exact (h.still hs ho).advanced hs.knows hs.claiming
  | declare => exact (h.declare (ho Nat.one_pos)).advanced trivial rfl
  | retract => exact h.retract.advanced trivial rfl
  | wake => exact h.wake.advanced trivial rfl
  | pass ha => exact (h.pass hn ha).advanced trivial rfl
  | sink ha => exact (h.sink hn ha).advanced trivial rfl
  | acquire ha => exact (h.acquire ha).advanced trivial rfl
  | lookNone hz => exact (h.lookNone hz).advanced trivial rfl
  | lookSome hs => exact (h.lookSome hs).advanced trivial rfl
  | add ha => exact (h.add hb ha).advanced trivial rfl
  | owe ha => exact (h.owe hb ha).advanced trivial rfl
  | release ha => exact (h.release ha).advanced trivial rfl
  | pushing hr ha => exact h.pushing hk hr ha hb
  | placed hr ha =>
    convert h.placed hk hr ha using 1
    split <;> rfl
  | refused hr ha =>
    exact h.refused hk hr ha (View.stake_look _ _ _ _) ⟨rfl, rfl, rfl, rfl, rfl⟩ (Nat.zero_add _)
      (fun _ => id) (fun _ => rfl) (Nat.zero_add _)
  | inline hr ha =>
    exact h.refused hk hr ha rfl ⟨rfl, rfl, rfl, rfl, rfl⟩ rfl (fun _ => id) (fun _ => trivial) rfl
  | full hr ha =>
    exact h.refused hk hr ha rfl ⟨rfl, rfl, rfl, rfl, rfl⟩ rfl (fun _ => id) (fun _ => trivial) rfl
  | popping hr ha => exact h.popping hk hr ha
  | missed hr ha =>
    exact h.missed hk hr ha rfl ⟨rfl, rfl, rfl, rfl⟩ rfl (fun _ _ hp => hp.elim) rfl
      (fun _ => trivial) rfl
  | passed hr ha =>
    refine h.missed hk hr ha rfl ⟨rfl, rfl, rfl, rfl⟩ rfl ?_ rfl (fun _ => trivial) rfl
    rintro q - ⟨y, hy, hq⟩
    rcases Nat.lt_succ_iff_lt_or_eq.1 hy with hy | rfl
    · exact .inl ⟨y, hy, hq⟩
    · exact .inr hq.symm
  | hit hr ha => exact h.hit hk hr ha

theorem firm_start {capacity : UInt64} {r : Ring β} (hr : Ring.new capacity none = .ok r)
    (phases : List Phase) :
    Firm n capacity.toNat f ⟨List.replicate n r, {}, phases⟩ (fun _ => .start) 0 0 0 := by
  refine ⟨by simp, fun q r' hq => ?_, rfl, ?_⟩
  · obtain rfl := List.eq_of_mem_replicate (List.mem_of_getElem? hq)
    exact Ring.tracks_start hr
  · simp [tot, stocked, Ghost.stock_start]

theorem roster_start : Roster n (0 : Multiset (Actor β)) := ⟨by simp, by simp, by simp⟩

theorem sound_start {capacity : UInt64} {r : Ring β} (hr : Ring.new capacity none = .ok r) :
    Sound n capacity.toNat f ⟨List.replicate n r, {}, List.replicate n .running⟩
      (fun _ => .start) 0 0 0 := by
  refine ⟨firm_start hr _, roster_start, fun a => List.eq_of_mem_replicate, rfl, ?_, ?_⟩
  · simp [tot]
  · intro q _ _ hl
    simp [Ghost.start] at hl

theorem Firm.join (h : Firm n cap f x G submitted begun m) :
    Firm n cap f x G submitted begun ((o, .away) ::ₘ m) := by
  refine ⟨h.size, fun q r hr => ?_, ?_, ?_⟩
  · rw [tot_stake rfl]
    exact h.rings q r hr
  · rw [tot_cons, h.sleepers]
    exact (Nat.zero_add _).symm
  · rw [tot_cons, tot_cons, h.kept]
    simp [View.inHand, View.inPlay]

theorem Sound.join (h : Sound n cap f x G submitted begun m)
    (ho : ∀ i ∈ o, i < n ∧ i ∉ m.filterMap Prod.fst) :
    Sound n cap f x G submitted begun ((o, .away) ::ₘ m) := by
  refine ⟨h.toFirm.join, h.toRoster.join ho, h.running, ?_, ?_, ?_⟩
  · rw [tot_cons, tot_cons, h.parked]
    simp [View.stuck, View.owes]
  · have := h.funded
    rw [tot_cons, tot_cons]
    change x.gate.semaphore.count.toInt + ((0 + _ : Nat) : Int) + ((0 + _ : Nat) : Int) ≤ _
    omega
  · intro q hq ha hl
    have hpast : AllPast n q m := fun i hi => by
      obtain ⟨v, hv, hp⟩ := ha i hi
      exact ⟨v, mem_of_ne hv (by rintro ⟨⟩; exact hp), hp⟩
    have := h.noticed q hq hpast hl
    simpa [credit, View.owing, View.adds, View.stuck] using this

theorem tot_idle {F : View β → Nat} (hidle : ∀ a ∈ m, a.2 = .away ∨ ∃ i, a.2 = .acquiring i)
    (h0 : F .away = 0) (h1 : ∀ i, F (.acquiring i) = 0) : tot F m = 0 := by
  refine Multiset.sum_eq_zero fun k hk => ?_
  obtain ⟨a, ha, rfl⟩ := Multiset.mem_map.1 hk
  rcases hidle a ha with he | ⟨i, he⟩
  · rw [he, h0]
  · rw [he, h1]

theorem Sound.credit_eq_zero (h : Sound n cap f x G submitted begun m)
    (hidle : ∀ a ∈ m, a.2 = .away ∨ ∃ i, a.2 = .acquiring i)
    (hp : x.gate.semaphore.permits = 0) (hs : 0 < tot View.stuck m) : credit x.gate m = 0 := by
  have howing := tot_idle (F := View.owing) hidle rfl fun _ => rfl
  have hadds := tot_idle (F := View.adds) hidle rfl fun _ => rfl
  have howes := tot_idle (F := View.owes) hidle rfl fun _ => rfl
  have := h.parked
  simp only [credit]
  omega

theorem released_of_idle {r : Ring β} {g : Ghost β} (ht : r.Tracks cap g 0)
    (hf : ¬ g.front < g.values.length) (p : Nat) (hp : p < g.values.length) :
    g.stage p = .released := by
  have h3 := (ht.taken_iff p).1 (by omega)
  have h1 := ht.held.ne (s := .taken) (p := p) (by decide) rfl
  have h2 := ht.held.ne (s := .read) (p := p) (by decide) rfl
  revert h3 h1 h2
  cases g.stage p <;> simp [Stage.rank]

theorem Firm.rest {settled : Nat} (h : Firm n cap f x G submitted settled m)
    (hidle : ∀ a ∈ m, a.2 = .away ∨ ∃ i, a.2 = .acquiring i)
    (hfront : ∀ q < n, ¬ (G q).front < (G q).values.length) :
    settled = submitted ∧ ∀ r ∈ x.queues, r.isEmpty ∧ Holding.items r = [] := by
  have hstake (q : Nat) : (fun hd => tot (fun v => v.stake q hd) m) = 0 := by
    funext hd
    exact tot_idle hidle rfl fun _ => rfl
  have htracks (q : Nat) (r : Ring β) (hr : x.queues[q]? = some r) : r.Tracks cap (G q) 0 := by
    have := h.rings q r hr
    rwa [hstake] at this
  refine ⟨?_, fun r hr => ?_⟩
  · have hhand := tot_idle (F := View.inHand f) hidle rfl fun _ => rfl
    have hplay := tot_idle (F := View.inPlay f) hidle rfl fun _ => rfl
    have hstocked : stocked n f G = 0 := Finset.sum_eq_zero fun q hq => by
      have hq := Finset.mem_range.1 hq
      obtain ⟨r, hr⟩ : ∃ r, x.queues[q]? = some r :=
        ⟨_, List.getElem?_eq_getElem (h.size.symm ▸ hq)⟩
      rw [Ghost.stock, Ghost.count]
      refine Finset.sum_eq_zero fun p hp => ?_
      have := released_of_idle (htracks q _ hr) (hfront q hq) p (Finset.mem_range.1 hp)
      simp [Stage.stocked, this, Stage.InStock, Stage.rank]
    have := h.kept
    omega
  · obtain ⟨q, hr⟩ := List.mem_iff_getElem?.1 hr
    have ht := htracks q r hr
    have hq := hfront q (h.lt hr)
    have hf : (G q).front = (G q).values.length := by
      have := ht.front_le
      omega
    exact ⟨Ring.isEmpty_of_eq (by rw [ht.front, ht.back, hf]),
      ht.items_eq_nil (released_of_idle ht hq) hf⟩

theorem Sound.settled (h : Sound n cap f x G submitted begun m) (hn : 0 < n)
    (hidle : ∀ a ∈ m, a.2 = .away ∨ ∃ i, a.2 = .acquiring i)
    (hall : ∀ i < n, ∃ j, (some i, .acquiring j) ∈ m) (hp : x.gate.semaphore.permits = 0) :
    begun = submitted ∧ ∀ r ∈ x.queues, r.isEmpty ∧ Holding.items r = [] := by
  have hstuck : 0 < tot View.stuck m := by
    obtain ⟨j, hj⟩ := hall 0 hn
    exact Nat.lt_of_lt_of_le Nat.one_pos (le_tot (F := View.stuck) hj)
  have hcredit := h.credit_eq_zero hidle hp hstuck
  refine h.toFirm.rest hidle fun q hq hl => ?_
  have := h.noticed q hq (fun i hi => (hall i hi).imp' View.acquiring fun _ hj => ⟨hj, trivial⟩) hl
  omega

end WorkStealing.Pool
