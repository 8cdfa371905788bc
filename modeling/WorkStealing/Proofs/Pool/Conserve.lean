import WorkStealing.Proofs.Pool.History

namespace WorkStealing.Pool

variable {ι α : Type} {n cap : Nat}

/-- Workers that there are may start, and anything else may be asked for at any time. -/
def Enters (n : Nat) : Call ι α → Bool
  | .work i => decide (i < n)
  | _ => true

theorem Enters.frame {c : Call ι α} (h : Enters n c) :
    Framed n c c.enter ∧ (c.enter : RingPoint ι α).view n = .away := by
  cases c with
  | work i => exact ⟨⟨rfl, rfl, rfl, of_decide_eq_true h⟩, rfl⟩
  | submit o => exact ⟨.caller o, rfl⟩
  | shutdown unwinding => exact ⟨⟨rfl, rfl, rfl⟩, rfl⟩
  | await slot => exact ⟨rfl, rfl⟩

def Stands (n cap : Nat) (G : Nat → Ghost (Item ι α)) : RingThread ι α → Prop
  | .running c pt => Framed n c pt ∧ (pt.view n).Knows cap G
  | .finished _ _ => True

theorem Stands.mono {G H : Nat → Ghost (Item ι α)} (t : RingThread ι α)
    (l : ∀ q, (G q).Le (H q)) (hk : Stands n cap G t) : Stands n cap H t := by
  cases t with
  | running c pt => exact ⟨hk.1, hk.2.mono l⟩
  | finished c r => trivial

theorem Mark.size {β : Type} {x x' : Core β} {c : Call ι α} {pt : RingPoint ι α} {a : RingMove ι α}
    (h : Mark x c pt a x') : x'.queues.length = x.queues.length := by
  cases h <;> rfl

theorem Mark.still {β : Type} {x x' : Core β} {c : Call ι α} {pt : RingPoint ι α} {a : RingMove ι α}
    (h : Mark x c pt a x') (n : Nat) : pt.view n = .away ∧ deed pt a = .none ∧
      (a.read (Point.view n) fun _ => .away) = .away ∧ ∃ i b, x' = x.setPhase i b := by
  cases h <;> exact ⟨rfl, rfl, rfl, _, _, rfl⟩

def puts (n : Nat) (f : Item ι α → Bool) (q : Nat) (log : Log ι α) : Nat :=
  (log.map fun e => (e.point.view n).puts f q (e.move.read (Point.view n) fun _ => .away)).sum

def gets (n : Nat) (f : Item ι α → Bool) (q : Nat) (log : Log ι α) : Nat :=
  (log.map fun e => (e.point.view n).gets f q (e.move.read (Point.view n) fun _ => .away)).sum

variable [BEq ι] {c : Config} {cores : Nat} {p : Rings ι α} {log : Log ι α} {k : RingCrew ι α}

theorem run_flows {allowed : RingCrew ι α → Call ι α → Prop} (hp : Pool.new c cores = .ok p)
    (hin : ∀ k c, allowed k c → Enters p.size c) (h : Crew.Run calls allowed ⟨p, []⟩ log k)
    (hb : claims log < 2 ^ 63) (f : Item ι α → Bool) : ∃ G : Nat → Ghost (Item ι α),
      (Firm p.size c.queueCapacity.toNat f (core k.state) G ((submitted log).countP f)
        ((begun log).countP f + (dropped log).countP f) (Crew.total (share p.size) k) ∧
        claimed p.size G = claims log ∧
        ∀ q, (G q).stock f + gets p.size f q log = puts p.size f q log) ∧
      ∀ t ∈ k.threads, Stands p.size c.queueCapacity.toNat G t := by
  obtain ⟨hpos, r, hr, hcore⟩ := new_ok hp
  refine h.invariant (share p.size)
    (fun log G s m => Firm p.size c.queueCapacity.toNat f (core s) G ((submitted log).countP f)
      ((begun log).countP f + (dropped log).countP f) m ∧ claimed p.size G = claims log ∧
      ∀ q, (G q).stock f + gets p.size f q log = puts p.size f q log)
    (Stands p.size c.queueCapacity.toNat) (fun log _ => claims log < 2 ^ 63)
    (fun G H => ∀ q, (G q).Le (H q)) (fun _ _ t l hk => hk.mono t l) ?_ ?_ ?_ ?_ ?_ hb
  · refine ⟨fun _ => .start, ⟨?_, ?_, fun q => ?_⟩, by simp⟩
    · rw [hcore]
      exact firm_start hr _
    · simp [claimed, claims, Ghost.start]
    · rw [Ghost.stock_start]
      rfl
  · exact fun _ _ _ hw => hw
  · rintro log m i d s pt a - hb
    rw [claims_cons] at hb
    omega
  · rintro log G k d hd ⟨hs, hl, hflow⟩ -
    obtain ⟨h1, h2⟩ := Enters.frame (hin k d hd)
    have hview : Multiset.cons (d.worker?, View.away) (Crew.total (share p.size) k) =
        share p.size (.running d d.enter) + Crew.total (share p.size) k := by
      rw [← h2, ← Multiset.singleton_add]
      rfl
    refine ⟨G, fun q => .refl _, ⟨hview ▸ hs.join, hl, hflow⟩, h1, ?_⟩
    change View.Knows _ G (Point.view p.size d.enter)
    rw [h2]
    trivial
  · rintro log G m i d s pt a ha ⟨hs, hl, hflow⟩ ⟨hframed, hk⟩ hb
    rw [claims_cons] at hb
    change claims log + (isClaim a).toNat < _ at hb
    have hsize : s.size = p.size := core_size s ▸ hs.size
    obtain ⟨he, hland⟩ := Point.shifts hsize hframed ha
    have hclaim := claiming_eq p.size a
    have hcarried : Carried p.size c.queueCapacity.toNat f (core a.state) G
        ((submitted log).countP f + (deed pt a).submits f)
        ((begun log).countP f + (dropped log).countP f + (deed pt a).settles f) d.worker?
        (pt.view p.size) (a.read (Point.view p.size) fun _ => .away) m := by
      rcases he with he | he
      · exact hs.shift hk he (by omega)
      · obtain ⟨hv, hdeed, hv', i, b, hx⟩ := he.still p.size
        change Firm _ _ _ _ _ _ _ ((d.worker?, pt.view p.size) ::ₘ m) at hs
        rw [hv] at hs
        rw [hdeed, hv, hv', hx]
        exact (hs.setPhase i b).carried trivial rfl fun _ => rfl
    obtain ⟨H, hle, hs', hk', hc', hflow'⟩ := hcarried
    refine ⟨H, hle, ⟨?_, ?_, fun q => ?_⟩, ?_⟩
    · rw [countP_submitted_cons, countP_settled_cons]
      cases a <;> exact hs'
    · rw [claims_cons, hc', hl, hclaim]
    · have hq := hflow q
      have hq' := hflow' q
      simp only [gets, puts, List.map_cons, List.sum_cons] at hq ⊢
      omega
    · cases a with
      | go s pt => exact ⟨hland, hk'⟩
      | done s r => trivial

theorem run_firm {allowed : RingCrew ι α → Call ι α → Prop} (hp : Pool.new c cores = .ok p)
    (hin : ∀ k c, allowed k c → Enters p.size c) (h : Crew.Run calls allowed ⟨p, []⟩ log k)
    (hb : claims log < 2 ^ 63) (f : Item ι α → Bool) : ∃ G : Nat → Ghost (Item ι α),
      Firm p.size c.queueCapacity.toNat f (core k.state) G ((submitted log).countP f)
        ((begun log).countP f + (dropped log).countP f) (Crew.total (share p.size) k) ∧
      ∀ t ∈ k.threads, Stands p.size c.queueCapacity.toNat G t := by
  obtain ⟨G, ⟨hs, -⟩, hk⟩ := run_flows hp hin h hb f
  exact ⟨G, hs, hk⟩

theorem run_framed {allowed : RingCrew ι α → Call ι α → Prop}
    (hin : ∀ k c, allowed k c → Enters p.size c) (h : Crew.Run calls allowed ⟨p, []⟩ log k) :
    k.state.size = p.size ∧ ∀ c pt, .running c pt ∈ k.threads → Framed p.size c pt := by
  induction h with
  | refl => exact ⟨rfl, by simp⟩
  | start _ d hd ih =>
    exact ⟨ih.1, Crew.running_start ih.2 (Enters.frame (hin _ _ hd)).1⟩
  | move hr ha ih =>
    rename_i log s before after d q a
    obtain ⟨hn, hs⟩ := ih
    obtain ⟨he, hland⟩ := Point.shifts hn (hs d q (by simp)) ha
    refine ⟨?_, Crew.running_land hs ?_⟩
    · change (a.land d).1.size = p.size
      rw [Move.fst_land, ← hn, ← core_size, ← core_size]
      exact he.elim Shift.size Mark.size
    · rintro s' pt rfl
      exact hland

end WorkStealing.Pool
