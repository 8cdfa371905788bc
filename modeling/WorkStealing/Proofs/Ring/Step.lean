import WorkStealing.Proofs.Crew.Run
import WorkStealing.Proofs.Ring.Stage
import Mathlib.Data.Nat.Find

namespace WorkStealing

namespace Ring

variable {α : Type} {n : Nat} {g h : Ghost α} {r : Ring α} {m : Hold → Nat} {v : α}

def Push.Unclaimed : Push α → Prop
  | .look _ | .inspect _ _ | .claim _ _ => True
  | .write _ _ | .publish _ => False

def Push.Knows (n : Nat) (g : Ghost α) (v : α) : Push α → Prop
  | .look w => w = v
  | .inspect w pos => w = v ∧ pos.toNat ≤ g.values.length
  | .claim w pos => w = v ∧ pos.toNat ≤ g.values.length ∧
      (pos.toNat = g.values.length → n ≤ pos.toNat → g.stage (pos.toNat - n) = .released)
  | .write w pos => w = v ∧ g.values[pos.toNat]? = some v
  | .publish pos => g.values[pos.toNat]? = some v

theorem Push.Knows.mono {e : Push α} (l : g.Le h) (hk : e.Knows n g v) : e.Knows n h v := by
  have hl := l.values.length_le
  cases e with
  | look w => exact hk
  | inspect w pos => exact ⟨hk.1, hk.2.trans hl⟩
  | claim w pos =>
    refine ⟨hk.1, hk.2.1.trans hl, fun he hn => l.released (hk.2.2 ?_ hn)⟩
    have := hk.2.1
    omega
  | write w pos => exact ⟨hk.1, l.value hk.2⟩
  | publish pos => exact l.value hk

inductive Push.Step (r : Ring α) (g : Ghost α) (v : α) :
    Push α → Move (Ring α) (Push α) (Except α UInt64) → Ghost α → Prop where
  | seek {e f : Push α} (he : e.Unclaimed) (hf : f.Unclaimed) : Step r g v e (.go r f) g
  | refuse {e : Push α} (he : e.Unclaimed) : Step r g v e (.done r (.error v)) g
  | claim {pos : UInt64} (hp : pos.toNat = g.values.length) :
      Step r g v (.claim v pos) (.go { r with back := pos + 1 } (.write v pos)) (g.claim v)
  | write {pos : UInt64} (hs : g.stage pos.toNat = .claimed) :
      Step r g v (.write v pos) (.go (r.setCell pos (some v)) (.publish pos))
        (g.setStage pos.toNat .written)
  | publish {pos : UInt64} (hs : g.stage pos.toNat = .written)
      (hv : g.values[pos.toNat]? = some v) :
      Step r g v (.publish pos) (.done (r.setTag pos (pos + 1)) (.ok pos))
        (g.setStage pos.toNat .published)

theorem Tracks.back_toNat (h : Tracks r n g m) : r.back.toNat = g.values.length := by
  have := h.short
  rw [h.back, toNat_ofNat (by omega)]

theorem Tracks.front_toNat (h : Tracks r n g m) : r.front.toNat = g.front := by
  have := h.short
  have := h.front_le
  rw [h.front, toNat_ofNat (by omega)]

theorem Tracks.slot?_of_mod (h : Tracks r n g m) {p : Nat} {pos : UInt64} (hc : g.Current n p)
    (he : p % n = pos.toNat % n) : r.slot? pos = some (g.slot p) := by
  rw [← h.slot p hc]
  have hplace : r.place pos = r.place (.ofNat p) := by
    rw [h.shaped.place_eq, toNat_ofNat (h.lt_of_current hc), he]
  simp only [slot?, hplace]

theorem Tracks.free_of_tag (h : Tracks r n g m) {pos : UInt64} {s : Slot α}
    (hs : r.slot? pos = some s) (ht : s.tag = pos) (hp : pos.toNat = g.values.length)
    (hn : n ≤ pos.toNat) : g.stage (pos.toNat - n) = .released := by
  by_contra hr
  have h2 := h.shaped.two_le
  have hshort := h.short
  rw [h.slot?_of_mod ⟨hr, h.reused _ (by omega)⟩ (Nat.mod_eq_sub_mod hn).symm,
    Option.some.injEq] at hs
  rcases g.slot_tag (pos.toNat - n) with e | e <;> rw [hs, ht] at e <;>
    have := congrArg UInt64.toNat e <;> rw [toNat_ofNat (by omega)] at this <;> omega

theorem Push.step {e : Push α} {a : Move (Ring α) (Push α) (Except α UInt64)}
    (ht : Tracks r n g (e.share + m)) (hk : e.Knows n g v) (ha : a ∈ e.moves r)
    (hb : ∀ t w pos, a = .go t (.write w pos) → g.values.length + 1 < 2 ^ 63) :
    ∃ h, e.Step r g v a h ∧ g.Le h ∧ Tracks a.state n h (a.share Push.share + m) ∧
      ∀ t f, a = .go t f → f.Knows n h v := by
  cases e with
  | look w =>
    obtain rfl : w = v := hk
    obtain rfl : a = .go r (.inspect w r.back) := by simpa [Push.moves] using ha
    refine ⟨g, .seek trivial trivial, .refl g, ht, ?_⟩
    rintro t f ⟨⟩
    exact ⟨rfl, ht.back_toNat.le⟩
  | inspect w pos =>
    obtain ⟨rfl, hp⟩ := hk
    simp only [Push.moves] at ha
    split at ha
    · simp at ha
    · rename_i s hs
      split at ha
      · rename_i hturn
        obtain rfl : a = .go r (.claim w pos) := by simpa using ha
        refine ⟨g, .seek trivial trivial, .refl g, ht, ?_⟩
        rintro t f ⟨⟩
        have htag : s.tag = pos := by
          by_contra hne
          simp only [turn, if_neg hne] at hturn
          split at hturn <;> simp at hturn
        exact ⟨rfl, hp, ht.free_of_tag hs htag⟩
      · obtain rfl : a = .done r (.error w) := by simpa using ha
        exact ⟨g, .refuse trivial, .refl g, ht, by simp⟩
      · obtain rfl : a = .go r (.look w) := by simpa using ha
        refine ⟨g, .seek trivial trivial, .refl g, ht, ?_⟩
        rintro t f ⟨⟩
        rfl
  | claim w pos =>
    obtain ⟨rfl, hp, hfree⟩ := hk
    have hseek : ∃ h, (Push.claim w pos).Step r g w (.go r (.inspect w r.back)) h ∧ g.Le h ∧
        Tracks r n h (0 + m) ∧ (Push.inspect w r.back).Knows n h w :=
      ⟨g, .seek trivial trivial, .refl g, ht, rfl, ht.back_toNat.le⟩
    simp only [Push.moves] at ha
    split at ha
    · rename_i hback
      have hpos : pos.toNat = g.values.length := hback ▸ ht.back_toNat
      rcases List.mem_cons.1 ha with rfl | ha
      · refine ⟨g.claim w, .claim hpos, g.le_claim w ht.stage_back, ?_, ?_⟩
        · have := ht.claim w (hpos ▸ hfree hpos) (hb _ _ _ rfl)
          simpa [Move.share, Push.share, ← hback, ht.back_toNat, Move.state] using this
        · rintro t f ⟨⟩
          exact ⟨rfl, by simp [Ghost.claim, hpos]⟩
      · obtain rfl : a = .go r (.inspect w r.back) := by simpa using ha
        obtain ⟨h, h1, h2, h3, h4⟩ := hseek
        refine ⟨h, h1, h2, h3, ?_⟩
        rintro t f ⟨⟩
        exact h4
    · obtain rfl : a = .go r (.inspect w r.back) := by simpa using ha
      obtain ⟨h, h1, h2, h3, h4⟩ := hseek
      refine ⟨h, h1, h2, h3, ?_⟩
      rintro t f ⟨⟩
      exact h4
  | write w pos =>
    obtain ⟨rfl, hv⟩ := hk
    obtain rfl : a = .go (r.setCell pos (some w)) (.publish pos) := by
      simpa [Push.moves] using ha
    have hst : g.stage pos.toNat = .claimed := ht.held.stage_eq (by decide)
    refine ⟨_, .write hst, g.le_setStage _ _ (by simp [hst, Stage.rank]), ?_, ?_⟩
    · simpa [Move.share, Push.share, Move.state] using ht.write hv
    · rintro t f ⟨⟩
      exact hv
  | publish pos =>
    obtain rfl : a = .done (r.setTag pos (pos + 1)) (.ok pos) := by simpa [Push.moves] using ha
    have hst : g.stage pos.toNat = .written := ht.held.stage_eq (by decide)
    refine ⟨_, .publish hst hk, g.le_setStage _ _ (by simp [hst, Stage.rank]), ?_, by simp⟩
    simpa [Move.share, Move.state] using ht.publish

theorem Push.claim_of_write {e : Push α} {r t : Ring α} {w : α} {pos : UInt64}
    (h : .go t (.write w pos) ∈ e.moves r) : e = .claim w pos := by
  cases e with
  | look v => simp [Push.moves] at h
  | inspect v p =>
    simp only [Push.moves] at h
    split at h
    · simp at h
    · split at h <;> simp at h
  | claim v p =>
    simp only [Push.moves] at h
    split at h
    · simp_all
    · simp at h
  | write v p => simp [Push.moves] at h
  | publish p => simp [Push.moves] at h

def Pop.Unclaimed : Pop α → Prop
  | .look | .inspect _ | .claim _ => True
  | .read _ | .release _ _ => False

def Pop.Knows (g : Ghost α) : Pop α → Prop
  | .look => True
  | .inspect pos => pos.toNat ≤ g.front
  | .claim pos => pos.toNat ≤ g.front ∧ (pos.toNat = g.front → 3 ≤ (g.stage g.front).rank)
  | .read _ => True
  | .release pos v => g.values[pos.toNat]? = some v

theorem Pop.Knows.mono {d : Pop α} (l : g.Le h) (hk : d.Knows g) : d.Knows h := by
  have hl := l.front
  cases d with
  | look => trivial
  | inspect pos => exact Nat.le_trans hk hl
  | claim pos =>
    refine ⟨hk.1.trans hl, fun he => ?_⟩
    have he' : h.front = g.front := by
      have := hk.1
      omega
    have := hk.2 (by omega)
    have := l.stage g.front
    rw [he']
    omega
  | read pos => trivial
  | release pos v => exact l.value hk

inductive Pop.Step (r : Ring α) (g : Ghost α) :
    Pop α → Move (Ring α) (Pop α) (Option (UInt64 × α)) → Ghost α → Prop where
  | seek {d e : Pop α} (hd : d.Unclaimed) (he : e.Unclaimed) : Step r g d (.go r e) g
  | miss {pos : UInt64} (hs : (g.stage g.front).rank < 3) : Step r g (.inspect pos) (.done r none) g
  | claim {pos : UInt64} (hp : pos.toNat = g.front) (hs : g.stage g.front = .published) :
      Step r g (.claim pos) (.go { r with front := pos + 1 } (.read pos)) g.take
  | read {pos : UInt64} {v : α} (hs : g.stage pos.toNat = .taken)
      (hv : g.values[pos.toNat]? = some v) :
      Step r g (.read pos) (.go (r.setCell pos none) (.release pos v)) (g.setStage pos.toNat .read)
  | release {pos : UInt64} {v : α} (hs : g.stage pos.toNat = .read)
      (hv : g.values[pos.toNat]? = some v) :
      Step r g (.release pos v) (.done (r.setTag pos (pos + r.capacity)) (some (pos, v)))
        (g.setStage pos.toNat .released)

theorem turn_ne_behind {t : Nat} {awaited : UInt64} (ht : t < 2 ^ 64) (hle : awaited.toNat ≤ t)
    (hlt : t < awaited.toNat + 2 ^ 63) : turn (.ofNat t) awaited ≠ .behind := by
  have hsub : (UInt64.ofNat t - awaited).toNat = t - awaited.toNat := by
    rw [UInt64.toNat_sub_of_le _ _ (by rwa [UInt64.le_iff_toNat_le, toNat_ofNat ht]),
      toNat_ofNat ht]
  have hahead : UInt64.ofNat t - awaited < 0x8000000000000000 := by
    rw [UInt64.lt_iff_toNat_lt, hsub]
    simp
    omega
  simp only [turn, if_pos hahead]
  split <;> simp

theorem toNat_succ {pos : UInt64} (h : pos.toNat < 2 ^ 63) : (pos + 1).toNat = pos.toNat + 1 := by
  rw [UInt64.toNat_add, UInt64.toNat_one, Nat.mod_eq_of_lt (by omega)]

theorem Tracks.exists_current (h : Tracks r n g m) {p : Nat} (hp : g.stage p = .released) :
    ∃ d, g.Current n (p + d * n + n) ∧ p + d * n < g.values.length := by
  have h2 := h.shaped.two_le
  have hlt {q : Nat} (hr : g.stage q = .released) : q < g.values.length :=
    (h.claimed_iff q).2 (by rw [hr]; decide)
  have hex : ∃ d, g.stage (p + d * n) ≠ .released := by
    refine ⟨g.values.length, fun hr => ?_⟩
    have := hlt hr
    have := Nat.le_mul_of_pos_right g.values.length (by omega : 0 < n)
    omega
  classical
  obtain ⟨d, hd⟩ : ∃ d, Nat.find hex = d + 1 := by
    refine Nat.exists_eq_succ_of_ne_zero fun h0 => ?_
    have := Nat.find_spec hex
    rw [h0] at this
    exact this (by simpa using hp)
  have hr : g.stage (p + d * n) = .released := not_not.1 (Nat.find_min hex (by omega))
  have hn := Nat.find_spec hex
  have he : p + (d + 1) * n = p + d * n + n := by rw [Nat.add_mul]; omega
  rw [hd, he] at hn
  exact ⟨d, ⟨hn, fun _ => by simpa using hr⟩, hlt hr⟩

theorem Tracks.turn_released (h : Tracks r n g m) {pos : UInt64} {s : Slot α}
    (hs : r.slot? pos = some s) (hp : g.stage pos.toNat = .released) :
    turn s.tag (pos + 1) ≠ .behind := by
  have h2 := h.shaped.two_le
  have hshort := h.short
  have hpos : pos.toNat < g.values.length := (h.claimed_iff _).2 (by rw [hp]; decide)
  obtain ⟨d, hc, hlen⟩ := h.exists_current hp
  rw [h.slot?_of_mod hc (by rw [Nat.add_mod_right, Nat.add_mul_mod_self_right]),
    Option.some.injEq] at hs
  have h64 := h.lt_of_current hc
  have hsucc := toNat_succ (by omega : pos.toNat < 2 ^ 63)
  -- the capacity divides `2 ^ 63`, so a cycle that begins below it ends at it
  have hcycle : d * n + n ≤ 2 ^ 63 := by
    obtain ⟨c, hd⟩ := h.shaped.dvd
    have hlt : n * d < n * c := by rw [Nat.mul_comm n d]; omega
    have hle : n * (d + 1) ≤ n * c := Nat.mul_le_mul_left n (Nat.lt_of_mul_lt_mul_left hlt)
    rw [Nat.mul_succ, Nat.mul_comm] at hle
    omega
  by_cases hfree : g.stage (pos.toNat + d * n + n) = .free
  · rw [← hs, Ghost.slot, hfree]
    exact turn_ne_behind h64 (by omega) (by omega)
  · have hc' := (h.claimed_iff _).2 (Stage.rank_pos hfree)
    rcases g.slot_tag (pos.toNat + d * n + n) with e | e <;> rw [hs] at e <;> rw [e] <;>
      exact turn_ne_behind (by omega) (by omega) (by omega)

theorem Tracks.unpublished_of_behind (h : Tracks r n g m) {pos : UInt64} {s : Slot α}
    (hs : r.slot? pos = some s) (ht : turn s.tag (pos + 1) = .behind) (hp : pos.toNat ≤ g.front) :
    (g.stage g.front).rank < 3 := by
  have hlt : (g.stage pos.toNat).rank < 3 := by
    by_contra hge
    by_cases hrel : g.stage pos.toNat = .released
    · exact h.turn_released hs hrel ht
    · rw [h.slot?_of_mod (h.current_of_rank (by omega) hrel) rfl, Option.some.injEq] at hs
      have htag : s.tag = pos + 1 := by
        rw [← hs, Ghost.slot]
        cases hst : g.stage pos.toNat <;> simp_all [Stage.rank]
      simp [turn, htag] at ht
  have := h.taken_iff pos.toNat
  have he : pos.toNat = g.front := by omega
  exact he ▸ hlt

theorem Tracks.published_of_tag (h : Tracks r n g m) {pos : UInt64} {s : Slot α}
    (hs : r.slot? pos = some s) (ht : s.tag = pos + 1) (hp : pos.toNat = g.front) :
    3 ≤ (g.stage g.front).rank := by
  by_contra hlt
  rw [← hp] at hlt
  have h2 := h.shaped.two_le
  have hshort := h.short
  have hfront := h.front_le
  have hsucc := toNat_succ (by omega : pos.toNat < 2 ^ 63)
  have hrel : g.stage pos.toNat ≠ .released := fun hr => hlt (by rw [hr]; decide)
  by_cases hc : n ≤ pos.toNat → g.stage (pos.toNat - n) = .released
  · rw [h.slot?_of_mod ⟨hrel, hc⟩ rfl, Option.some.injEq] at hs
    have htag : s.tag = pos := by
      rw [← hs, Ghost.slot]
      cases hst : g.stage pos.toNat <;> simp [hst, Stage.rank] at hlt ⊢
    have := congrArg UInt64.toNat (htag.symm.trans ht)
    omega
  · obtain ⟨hn, hr⟩ := Classical.not_imp.1 hc
    rw [h.slot?_of_mod ⟨hr, h.reused _ (by omega)⟩ (Nat.mod_eq_sub_mod hn).symm,
      Option.some.injEq] at hs
    rcases g.slot_tag (pos.toNat - n) with e | e <;> rw [hs, ht] at e <;>
      have := congrArg UInt64.toNat e <;> rw [toNat_ofNat (by omega)] at this <;> omega

theorem Pop.step {d : Pop α} {a : Move (Ring α) (Pop α) (Option (UInt64 × α))}
    (ht : Tracks r n g (d.share + m)) (hk : d.Knows g) (ha : a ∈ d.moves r) :
    ∃ h, d.Step r g a h ∧ g.Le h ∧ Tracks a.state n h (a.share Pop.share + m) ∧
      ∀ t e, a = .go t e → e.Knows h := by
  cases d with
  | look =>
    obtain rfl : a = .go r (.inspect r.front) := by simpa [Pop.moves] using ha
    refine ⟨g, .seek trivial trivial, .refl g, ht, ?_⟩
    rintro t e ⟨⟩
    exact ht.front_toNat.le
  | inspect pos =>
    simp only [Pop.moves] at ha
    split at ha
    · simp at ha
    · rename_i s hs
      split at ha
      · rename_i hturn
        obtain rfl : a = .go r (.claim pos) := by simpa using ha
        refine ⟨g, .seek trivial trivial, .refl g, ht, ?_⟩
        rintro t e ⟨⟩
        have htag : s.tag = pos + 1 := by
          by_contra hne
          simp only [turn, if_neg hne] at hturn
          split at hturn <;> simp at hturn
        exact ⟨hk, ht.published_of_tag hs htag⟩
      · rename_i hturn
        obtain rfl : a = .done r none := by simpa using ha
        exact ⟨g, .miss (ht.unpublished_of_behind hs hturn hk), .refl g, ht, by simp⟩
      · obtain rfl : a = .go r .look := by simpa using ha
        refine ⟨g, .seek trivial trivial, .refl g, ht, ?_⟩
        rintro t e ⟨⟩
        trivial
  | claim pos =>
    obtain ⟨hp, hpub⟩ := hk
    have hseek : (Pop.claim pos).Step r g (.go r (.inspect r.front)) g ∧
        (Pop.inspect r.front).Knows g := ⟨.seek trivial trivial, ht.front_toNat.le⟩
    simp only [Pop.moves] at ha
    split at ha
    · rename_i hfront
      have hpos : pos.toNat = g.front := hfront ▸ ht.front_toNat
      rcases List.mem_cons.1 ha with rfl | ha
      · have hst : g.stage g.front = .published := by
          apply Stage.rank_inj
          have := hpub hpos
          have := ht.stage_front
          change (g.stage g.front).rank = 3
          omega
        refine ⟨g.take, .claim hpos hst, g.le_take hst, ?_, ?_⟩
        · simpa [Move.share, Pop.share, ← hfront, ht.front_toNat, Move.state] using ht.take hst
        · rintro t e ⟨⟩
          trivial
      · obtain rfl : a = .go r (.inspect r.front) := by simpa using ha
        refine ⟨g, hseek.1, .refl g, ht, ?_⟩
        rintro t e ⟨⟩
        exact hseek.2
    · obtain rfl : a = .go r (.inspect r.front) := by simpa using ha
      refine ⟨g, hseek.1, .refl g, ht, ?_⟩
      rintro t e ⟨⟩
      exact hseek.2
  | read pos =>
    have hst : g.stage pos.toNat = .taken := ht.held.stage_eq (by decide)
    have hc : g.Current n pos.toNat :=
      ht.current_of_rank (by simp [hst, Stage.rank]) (by simp [hst])
    have hslot := ht.slot _ hc
    simp only [UInt64.ofNat_toNat, Ghost.slot, hst] at hslot
    simp only [Pop.moves, hslot, Option.bind_some] at ha
    split at ha
    · simp at ha
    · rename_i v hv
      obtain rfl : a = .go (r.setCell pos none) (.release pos v) := by simpa using ha
      refine ⟨_, .read hst hv, g.le_setStage _ _ (by simp [hst, Stage.rank]), ?_, ?_⟩
      · simpa [Move.share, Pop.share, Move.state] using ht.read
      · rintro t e ⟨⟩
        exact hv
  | release pos v =>
    obtain rfl : a = .done (r.setTag pos (pos + r.capacity)) (some (pos, v)) := by
      simpa [Pop.moves] using ha
    have hst : g.stage pos.toNat = .read := ht.held.stage_eq (by decide)
    refine ⟨_, .release hst hk, g.le_setStage _ _ (by simp [hst, Stage.rank]), ?_, by simp⟩
    simpa [Move.share, Move.state] using ht.release

end Ring

end WorkStealing
