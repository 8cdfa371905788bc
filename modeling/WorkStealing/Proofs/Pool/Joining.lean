import WorkStealing.Proofs.Latch.Opening
import WorkStealing.Proofs.Pool.Fate

namespace WorkStealing.Pool

variable {ι α : Type}

inductive Progress (α : Type) where
  | unmet
  | met (x : Fate α)
  | stored (x : Fate α)

namespace Progress

def fate? : Progress α → Option (Fate α)
  | .unmet => none
  | .met x | .stored x => some x

def storing : Progress α → Nat
  | .met _ => 1
  | _ => 0

structure Le (g h : Progress α) : Prop where
  fate : ∀ x, g.fate? = some x → h.fate? = some x
  stored : ∀ x, g = .stored x → h = .stored x

theorem Le.refl (g : Progress α) : g.Le g := ⟨fun _ => id, fun _ => id⟩

end Progress

inductive Duty where
  | latch (r : Latch.Role)
  | storing
  | looking
  | awaiting
  | told

namespace Part

def roles : Part α → Latch.Role → Nat
  | .posting p => p.roles
  | .waiting w => w.roles
  | _ => fun _ => 0

def share (x : Part α) : Duty → Nat
  | .latch r => x.roles r
  | .storing =>
    match x with
    | .storing _ => 1
    | _ => 0
  | .looking =>
    match x with
    | .posting p => p.looking.isSome.toNat
    | _ => 0
  | .awaiting =>
    match x with
    | .waiting _ | .taking => 1
    | _ => 0
  | .told =>
    match x with
    | .told _ => 1
    | _ => 0

def Knows (l : Latch) (g : Progress α) : Part α → Prop
  | .away => True
  | .storing r => ∃ x, g.fate? = some x ∧ r = x.report
  | .posting p => (∃ x, g = .stored x) ∧ Latch.Knows l (.running (.post 1) (.post p))
  | .waiting w => Latch.Knows l (.running .wait (.wait w))
  | .taking => l.count.toInt = 0
  | .told r => ∃ x, g = .stored x ∧ r = x.report

theorem Knows.mono {l l' : Latch} {g g' : Progress α} {x : Part α} (hl : Latch.Later l l')
    (hg : g.Le g') (h : x.Knows l g) : x.Knows l' g' := by
  cases x with
  | away => trivial
  | storing r =>
    obtain ⟨y, hy, hr⟩ := h
    exact ⟨y, hg.fate y hy, hr⟩
  | posting p =>
    obtain ⟨⟨y, hy⟩, hp⟩ := h
    exact ⟨⟨y, hg.stored y hy⟩, hl.knows hp⟩
  | waiting w => exact hl.knows h
  | taking => exact hl.opened h
  | told r =>
    obtain ⟨y, hy, hr⟩ := h
    exact ⟨y, hg.stored y hy, hr⟩

end Part

/-- The latch of a slot, with what its threads are counted for there. It is open or about to be once
a result has been stored, and not before. -/
structure Guarded (g : Progress α) (l : Latch) (m : Duty → Nat) (n : Nat) : Prop where
  balanced : Latch.Balanced n l fun r => m (.latch r)
  le : n ≤ 1
  shut : (∀ x, g ≠ .stored x) → n = 1
  opening : n = 1 → ∀ x, g = .stored x → 0 < m .looking

structure Handed (fs : List (Fate α)) (g : Progress α) (z : ResultSlot α) (m : Duty → Nat) :
    Prop where
  fates : fs = g.fate?.toList
  storing : m .storing = g.storing
  result : ∀ x, g = .stored x → m .told = 0 → z.result = some x.report
  alone : m .awaiting + m .told ≤ 1
  latch : ∃ n, Guarded g z.latch m n

structure Passed (fs : List (Fate α)) (g : Progress α) (z z' : ResultSlot α) (y : Part α)
    (m : Duty → Nat) (g' : Progress α) : Prop where
  le : g.Le g'
  later : Latch.Later z.latch z'.latch
  handed : Handed fs g' z' (y.share + m)
  knows : y.Knows z'.latch g'

section Steps

variable {fs : List (Fate α)} {g : Progress α} {z : ResultSlot α} {m : Duty → Nat}

theorem Handed.meet {x : Fate α} (h : Handed fs g z ((.away : Part α).share + m))
    (hone : (x :: fs).length ≤ 1) : Passed (x :: fs) g z z (.storing x.report) m (.met x) := by
  obtain rfl : fs = [] := by
    cases fs with
    | nil => rfl
    | cons y fs => simp at hone
  obtain rfl : g = .unmet := by
    cases g with
    | unmet => rfl
    | _ => cases h.fates
  obtain ⟨n, hn⟩ := h.latch
  refine ⟨⟨by rintro y ⟨⟩, by rintro y ⟨⟩⟩, ⟨id, fun _ => id⟩, ⟨rfl, ?_, by rintro y ⟨⟩, h.alone, n, ?_⟩,
    x, rfl, rfl⟩
  · exact congrArg (1 + ·) ((Nat.zero_add _).symm.trans h.storing)
  · exact ⟨hn.balanced, hn.le, fun _ => hn.shut (by rintro y ⟨⟩), by rintro - y ⟨⟩⟩

theorem Handed.store {r : Except JoinError α} (h : Handed fs g z ((.storing r : Part α).share + m))
    (hk : (Part.storing r).Knows z.latch g) : ∃ g', Passed fs g z { z with result := some r }
      (.posting (.look 1)) m g' := by
  obtain ⟨x, hx, rfl⟩ := hk
  have hstoring : 1 + m .storing = g.storing := h.storing
  cases g with
  | unmet => cases hx
  | stored y =>
    simp only [Progress.storing] at hstoring
    omega
  | met y =>
    obtain rfl : y = x := Option.some.inj hx
    simp only [Progress.storing] at hstoring
    obtain ⟨n, hn⟩ := h.latch
    refine ⟨.stored y, ⟨fun _ => id, by rintro y ⟨⟩⟩, ⟨id, fun _ => id⟩,
      ⟨h.fates, ?_, ?_, h.alone, n, ?_⟩, ⟨y, rfl⟩, rfl, by decide⟩
    · change 0 + m .storing = 0
      omega
    · rintro y ⟨⟩ -
      rfl
    · exact ⟨hn.balanced, hn.le, fun h => absurd rfl (h y), fun _ _ _ => Nat.lt_add_right _ Nat.one_pos⟩

theorem later_of_kept {l : Latch} {n k : Nat} {c : Latch.Call} {r r' : Latch.Role → Nat}
    {a : Move Latch Latch.Point Latch.Reply} (hb : Latch.Balanced n l r)
    (h : Latch.Kept (n - k) l c r' a) : Latch.Later l (a.land c).1 := by
  refine ⟨fun h0 => ?_, h.shared⟩
  have hcount := hb.count_eq
  have hcount' := h.balanced.count_eq
  omega

theorem Handed.post {q : Latch.Post} {b : Move Latch Latch.Post Bool} (hb : b ∈ q.moves z.latch)
    (h : Handed fs g z ((.posting q : Part α).share + m))
    (hk : (.posting q : Part α).Knows z.latch g) :
    Passed fs g z (z.setLatch b.state) (b.read .posting fun _ => .away) m g := by
  obtain ⟨⟨x, rfl⟩, hknows⟩ := hk
  obtain ⟨n, hn⟩ := h.latch
  have hstep := Latch.step_of_moves (p := .post q) (List.mem_map_of_mem hb)
  have hkept := hstep.kept (i := 0) hknows hn.balanced
  have hlater := later_of_kept hn.balanced hkept
  have hle := hn.le
  have hlooking (h1 : n = 1) : 0 < q.looking.isSome.toNat + m .looking := hn.opening h1 x rfl
  have hopen := hstep.opens (i := 0) rfl hknows hn.balanced hn.le
  cases b with
  | go l q' =>
    refine ⟨.refl _, hlater, ⟨h.fates, h.storing, h.result, h.alone, _, hkept.balanced, by omega,
      fun h0 => absurd rfl (h0 x), fun h1 _ _ => ?_⟩, ⟨x, rfl⟩, hkept.knows⟩
    change 0 < q'.looking.isSome.toNat + m .looking
    cases hq : q.looking.isSome with
    | false =>
      rw [hq] at hlooking
      have := hlooking (by omega)
      simp only [Bool.toNat_false] at this
      omega
    | true =>
      obtain h0 | ⟨_, _, he, hq'⟩ := hopen hq
      · omega
      · cases he
        rw [hq', Bool.toNat_true]
        omega
  | done l b =>
    have hforget := hkept.balanced.forget
    rw [← zero_add fun r => m (.latch r)] at hforget
    refine ⟨.refl _, hlater, ⟨h.fates, h.storing, h.result, h.alone, _, hforget, by omega,
      fun h0 => absurd rfl (h0 x), fun h1 _ _ => ?_⟩, trivial⟩
    change 0 < 0 + m .looking
    cases hq : q.looking.isSome with
    | false =>
      rw [hq] at hlooking
      exact hlooking (by omega)
    | true =>
      obtain h0 | ⟨_, _, he, _⟩ := hopen hq
      · omega
      · cases he

theorem Handed.wait {w : Latch.Wait} {b : Move Latch Latch.Wait (Option Int32)}
    (hb : b ∈ w.moves z.latch) (h : Handed fs g z ((.waiting w : Part α).share + m))
    (hk : (.waiting w : Part α).Knows z.latch g) :
    Passed fs g z (z.setLatch b.state) (b.read .waiting fun _ => .taking) m g := by
  obtain ⟨n, hn⟩ := h.latch
  have hstep := Latch.step_of_moves (p := .wait w) (List.mem_map_of_mem hb)
  have hkept := hstep.kept (i := 0) hk hn.balanced
  have hlater := later_of_kept hn.balanced hkept
  rcases b with ⟨l, w'⟩ | ⟨l, _ | alarm⟩
  · exact ⟨.refl _, hlater, ⟨h.fates, h.storing, h.result, h.alone, _, hkept.balanced, hn.le, hn.shut,
      hn.opening⟩, hkept.knows⟩
  · refine ⟨.refl _, hlater, ⟨h.fates, h.storing, h.result, h.alone, _, ?_, hn.le, hn.shut,
      hn.opening⟩, hkept.knows.2⟩
    exact hkept.balanced
  · exact hkept.knows.elim

theorem Handed.stored (h : Handed fs g z m) (h0 : z.latch.count.toInt = 0) : ∃ x, g = .stored x := by
  obtain ⟨n, hn⟩ := h.latch
  have hcount := hn.balanced.count_eq
  by_contra hne
  have := hn.shut fun x hx => hne ⟨x, hx⟩
  omega

theorem Handed.opened (h : Handed fs g z m) (hf : fs ≠ []) (hstoring : m .storing = 0)
    (hlooking : m .looking = 0) : Guarded g z.latch m 0 := by
  obtain ⟨x, rfl⟩ : ∃ x, g = .stored x := by
    cases g with
    | unmet => exact absurd h.fates hf
    | met x =>
      have := h.storing
      rw [hstoring] at this
      cases this
    | stored x => exact ⟨x, rfl⟩
  obtain ⟨n, hn⟩ := h.latch
  obtain rfl : n = 0 := by
    have := hn.le
    by_contra hne
    have := hn.opening (by omega) x rfl
    omega
  exact hn

theorem Handed.found (h : Handed fs g z ((.taking : Part α).share + m))
    (hk : (.taking : Part α).Knows z.latch g) : ∃ x, g = .stored x ∧ z.result = some x.report := by
  obtain ⟨x, rfl⟩ := h.stored hk
  have halone : (1 + m .awaiting) + (0 + m .told) ≤ 1 := h.alone
  refine ⟨x, rfl, h.result x rfl ?_⟩
  change 0 + m .told = 0
  omega

theorem Handed.take (h : Handed fs g z ((.taking : Part α).share + m))
    (hk : (.taking : Part α).Knows z.latch g) : Passed fs g z { z with result := none }
      (.told (z.result.getD (.error .cancelled))) m g := by
  obtain ⟨x, rfl, hresult⟩ := h.found hk
  obtain ⟨n, hn⟩ := h.latch
  have halone : (1 + m .awaiting) + (0 + m .told) ≤ 1 := h.alone
  rw [hresult]
  refine ⟨.refl _, ⟨id, fun _ => id⟩, ⟨h.fates, h.storing, ?_, ?_, n, hn.balanced, hn.le, hn.shut,
    hn.opening⟩, x, rfl, rfl⟩
  · intro y hy h0
    have h0 : 1 + m .told = 0 := h0
    omega
  · change (0 + m .awaiting) + (1 + m .told) ≤ 1
    omega

theorem Handing.kept {x y : Part α} {f : Option (Fate α)} {z' : ResultSlot α}
    (hh : Handing z x f z' y) (h : Handed fs g z (x.share + m)) (hk : x.Knows z.latch g)
    (hone : (f.toList ++ fs).length ≤ 1) : ∃ g', Passed (f.toList ++ fs) g z z' y m g' := by
  cases hh with
  | still => exact ⟨g, .refl _, ⟨id, fun _ => id⟩, h, trivial⟩
  | meet x => exact ⟨_, h.meet hone⟩
  | store r => exact h.store hk
  | post hb => exact ⟨g, h.post hb hk⟩
  | posted hb => exact ⟨g, h.post hb hk⟩
  | wait hb => exact ⟨g, h.wait hb hk⟩
  | passed hb => exact ⟨g, h.wait hb hk⟩
  | take => exact ⟨g, h.take hk⟩

theorem Part.idle_le (x : Part α) :
    x.share (.latch .idle) + Latch.inside (fun r => x.share (.latch r)) ≤ x.share .awaiting := by
  rcases x with _ | _ | (_ | _ | _ | ⟨_, _ | _⟩) | (_ | _ | _ | _ | ⟨_, _ | _⟩ | _) | _ | _ <;>
    first | exact Nat.le_refl _ | exact Nat.zero_le _

theorem Part.share_away : (.away : Part α).share = 0 := funext fun d => by cases d <;> rfl

theorem Handed.join (h : Handed fs g z m) (halone : m .awaiting + m .told = 0)
    (hidle : m (.latch .idle) + Latch.inside (fun r => m (.latch r)) = 0) :
    Handed fs g z ((.waiting .peek : Part α).share + m) := by
  obtain ⟨n, hn⟩ := h.latch
  refine ⟨h.fates, ?_, fun x hx h0 => h.result x hx (by omega), ?_, n, ?_, hn.le, hn.shut,
    fun h1 x hx => ?_⟩
  · exact (Nat.zero_add _).trans h.storing
  · change (1 + m .awaiting) + (0 + m .told) ≤ 1
    omega
  · exact hn.balanced.enter (by omega)
  · exact Nat.lt_add_left _ (hn.opening h1 x hx)

end Steps

section Calls

def Call.awaited? : Call ι α → Option Nat
  | .await s => some s
  | _ => none

/-- Each task is waited for once at most. Workers that there are may start, and anything else may be
asked for at any time. -/
def Joins (n : Nat) (k : RingCrew ι α) : Call ι α → Bool
  | .await s => k.threads.all fun t => (threadCall t).awaited? != some s
  | c => Enters n c

theorem Joins.enters {n : Nat} {k : RingCrew ι α} {c : Call ι α} (h : Joins n k c) :
    Enters n c := by
  cases c <;> first | exact h | rfl

theorem Framed.apart {n s : Nat} {c : Call ι α} {pt : RingPoint ι α} (h : Framed n c pt)
    (hc : c.awaited? ≠ some s) : (pt.part s).share .awaiting = 0 ∧ (pt.part s).share .told = 0 := by
  have hdeliver (d : ResultSlot.Deliver α) (s' : Nat) :
      (if s' = s then deliverPart d else .away).share .awaiting = 0 ∧
        (if s' = s then deliverPart d else .away).share .told = 0 := by
    split
    · cases d <;> exact ⟨rfl, rfl⟩
    · exact ⟨rfl, rfl⟩
  rcases pt with ⟨place, top, below⟩ | ⟨slot, w⟩
  · cases top with
    | run t r => cases r <;> first | exact hdeliver _ _ | exact ⟨rfl, rfl⟩
    | shutdown unwinding x => cases x <;> first | exact hdeliver _ _ | exact ⟨rfl, rfl⟩
    | _ => exact ⟨rfl, rfl⟩
  · obtain rfl := h
    have hne : slot ≠ s := fun he => hc (congrArg some he)
    rw [Point.part, if_neg hne]
    exact ⟨rfl, rfl⟩

end Calls

section Runs

def Stays (n s : Nat) (l : Latch) (g : Progress α) : RingThread ι α → Prop
  | .running c pt => Framed n c pt ∧ (pt.part s).Knows l g
  | .finished c r => (threadPart s (.finished c r : RingThread ι α)).Knows l g

theorem Stays.knows {n s : Nat} {l : Latch} {g : Progress α} {t : RingThread ι α}
    (h : Stays n s l g t) : (threadPart s t).Knows l g := by
  cases t with
  | running c pt => exact h.2
  | finished c r => exact h

theorem Stays.mono {n s : Nat} {l l' : Latch} {g g' : Progress α} {t : RingThread ι α}
    (hl : Latch.Later l l') (hg : g.Le g') (h : Stays n s l g t) : Stays n s l' g' t := by
  cases t with
  | running c pt => exact ⟨h.1, h.2.mono hl hg⟩
  | finished c r => exact Part.Knows.mono hl hg h

theorem Stays.apart {n s : Nat} {l : Latch} {g : Progress α} {t : RingThread ι α}
    (h : Stays n s l g t) (hc : (threadCall t).awaited? ≠ some s) :
    (threadPart s t).share .awaiting = 0 ∧ (threadPart s t).share .told = 0 := by
  cases t with
  | running c pt => exact h.1.apart hc
  | finished c r =>
    cases c with
    | await s' =>
      have hne : s' ≠ s := fun he => hc (congrArg some he)
      cases r with
      | left o => exact ⟨rfl, rfl⟩
      | joined r =>
        rw [threadPart, if_neg hne]
        exact ⟨rfl, rfl⟩
    | _ => exact ⟨rfl, rfl⟩

def threadShare (s : Nat) (t : RingThread ι α) : Duty → Nat := (threadPart s t).share

theorem threadPart_enter (s : Nat) (c : Call ι α) : threadPart s (.running c c.enter) =
    if c.awaited? = some s then .waiting .peek else .away := by
  cases c with
  | await s' =>
    simp only [Call.awaited?, Option.some.injEq]
    rfl
  | _ => rfl

theorem Handed.start {n s : Nat} {fs : List (Fate α)} {g : Progress α} {z : ResultSlot α}
    {k : RingCrew ι α} {c : Call ι α} (h : Handed fs g z (Crew.total (threadShare s) k))
    (hk : ∀ t ∈ k.threads, Stays n s z.latch g t) (hc : Joins n k c) :
    Handed fs g z (threadShare s (.running c c.enter) + Crew.total (threadShare s) k) ∧
      Stays n s z.latch g (.running c c.enter) := by
  have hframed := (Enters.frame (Joins.enters hc)).1
  have henter : (c.enter : RingPoint ι α).part s = _ := threadPart_enter s c
  rw [Stays, threadShare, threadPart_enter, henter]
  split
  · rename_i he
    obtain rfl : c = .await s := by
      cases c <;> cases he
      rfl
    have hnone (t) (ht : t ∈ k.threads) : threadShare s t .awaiting = 0 ∧ threadShare s t .told = 0 :=
      (hk t ht).apart (by simpa using List.all_eq_true.1 hc t ht)
    have hawaiting : Crew.total (threadShare s) k .awaiting = 0 := by
      rw [Crew.total_apply]
      exact Crew.total_eq_zero fun t ht => (hnone t ht).1
    have htold : Crew.total (threadShare s) k .told = 0 := by
      rw [Crew.total_apply]
      exact Crew.total_eq_zero fun t ht => (hnone t ht).2
    have hidle : Crew.total (threadShare s) k (.latch .idle) +
        Latch.inside (fun r => Crew.total (threadShare s) k (.latch r)) ≤
          Crew.total (threadShare s) k .awaiting := by
      simp only [Latch.inside, Crew.total_apply, ← Crew.total_add]
      exact Crew.total_mono (fun t => (threadPart s t).idle_le) k
    exact ⟨h.join (by omega) (by omega), hframed, rfl⟩
  · rw [Part.share_away, zero_add]
    exact ⟨h, hframed, trivial⟩

theorem slots_new {c : Config} {cores : Nat} {p : Rings ι α} (hp : Pool.new c cores = .ok p) :
    p.slots = [] := by
  simp only [Pool.new] at hp
  split at hp
  · cases hp
  · split at hp
    · cases hp
    · obtain rfl := Except.ok.inj hp
      rfl

variable [BEq ι] {c : Config} {cores : Nat} {p : Rings ι α} {log : Log ι α} {k : RingCrew ι α}

theorem run_handed (hp : Pool.new c cores = .ok p)
    (h : Crew.Run calls (fun k c => Joins p.size k c) ⟨p, []⟩ log k) (hb : claims log < 2 ^ 63)
    (s : Nat) : ∃ g, Handed (fates s log) g (slotAt k.state s) (Crew.total (threadShare s) k) ∧
      ∀ t ∈ k.threads, Stays p.size s (slotAt k.state s).latch g t := by
  have hone : (fates s log).length ≤ 1 := by
    have := run_fates hp (fun _ _ hc => Joins.enters hc) h hb s
    split at this <;> omega
  suffices hrun : ∃ g : Latch × Progress α, (g.1 = (slotAt k.state s).latch ∧
      k.state.size = p.size ∧
      Handed (fates s log) g.2 (slotAt k.state s) (Crew.total (threadShare s) k)) ∧
      ∀ t ∈ k.threads, Stays p.size s g.1 g.2 t by
    obtain ⟨⟨l, g⟩, ⟨rfl, -, hh⟩, hk⟩ := hrun
    exact ⟨g, hh, hk⟩
  refine h.invariant (threadShare s)
    (fun log g st m => g.1 = (slotAt st s).latch ∧ st.size = p.size ∧
      Handed (fates s log) g.2 (slotAt st s) m)
    (fun g t => Stays p.size s g.1 g.2 t) (fun log _ => (fates s log).length ≤ 1)
    (fun (g h : Latch × Progress α) => Latch.Later g.1 h.1 ∧ g.2.Le h.2)
    (fun _ _ _ hle ht => ht.mono hle.1 hle.2) ?_ (fun _ _ _ => id) ?_ ?_ ?_ hone
  · have hslot : slotAt p s = {} := by
      rw [slotAt, slots_new hp]
      rfl
    rw [hslot]
    exact ⟨(_, .unmet), ⟨rfl, rfl, rfl, rfl, by rintro x ⟨⟩, Nat.zero_le _, 1,
      Latch.balanced_start rfl, Nat.le_refl _, fun _ => rfl, by rintro - x ⟨⟩⟩, by simp⟩
  · rintro log m i c st pt a - hw
    exact ((List.sublist_cons_self _ _).filterMap _).length_le.trans hw
  · rintro log ⟨l, g⟩ k d hd ⟨rfl, hsize, hh⟩ hk
    obtain ⟨hh', hk'⟩ := hh.start hk hd
    exact ⟨_, ⟨⟨id, fun _ => id⟩, .refl _⟩, ⟨rfl, hsize, hh'⟩, hk'⟩
  · rintro log ⟨l, g⟩ m i d st pt a ha ⟨rfl, hsize, hh⟩ ⟨hs, hknows⟩ hw
    obtain ⟨he, hland⟩ := Point.shifts hsize hs ha
    rw [fates_cons] at hw ⊢
    obtain ⟨g', hpassed⟩ := (Point.hands hs ha s).handing.kept hh hknows hw
    rw [Move.fst_land]
    refine ⟨(_, g'), ⟨hpassed.later, hpassed.le⟩, ⟨rfl, ?_, hpassed.handed⟩, ?_⟩
    · rw [← hsize, ← core_size, ← core_size]
      exact he.elim Shift.size Mark.size
    · cases a with
      | go st' pt' => exact ⟨hland, hpassed.knows⟩
      | done st' r => exact hpassed.knows

end Runs

section Waiting

variable {p : Rings ι α} {s : Nat} {z : ResultSlot α} {g : Progress α} {own : Nat → Nat}

theorem deliver_moves_ne_nil (ho : Latch.Owned z.latch own) {d : ResultSlot.Deliver α}
    (hk : (deliverPart d).Knows z.latch g) : d.moves z ≠ [] := by
  cases d with
  | store r => exact List.cons_ne_nil _ _
  | post q =>
    intro h
    have hq : Latch.Point.moves z.latch (.post q) = [] :=
      List.map_eq_nil_iff.2 (List.map_eq_nil_iff.1 h)
    obtain ⟨a, he, -⟩ := Latch.Point.eq_asleep ho hk.2 hq
    cases he

theorem handOver_ne_nil (ho : Latch.Owned z.latch own) {d : ResultSlot.Deliver α}
    (hk : (deliverPart d).Knows z.latch g) (hz : p.slots[s]? = some z) {X : Type}
    (stay : ResultSlot.Deliver α → X)
    (finish : Rings ι α → Completer → TurnMove (Ring (Item ι α)) ι α X) :
    handOver p s d stay finish ≠ [] := by
  rw [handOver, hz]
  exact fun h => deliver_moves_ne_nil ho hk (List.map_eq_nil_iff.1 h)

theorem Point.eq_asleep [BEq ι] (ho : Latch.Owned z.latch own) (hz : p.slots[s]? = some z)
    {pt : RingPoint ι α} (hk : (pt.part s).Knows z.latch g) (hp : p.aborted = false)
    (h : pt.moves p = []) : pt.part s = .away ∨
      ∃ a, pt.part s = .waiting (.sleep a .acquire) ∧ z.latch.main.permits = 0 := by
  rcases pt with ⟨place, top, below⟩ | ⟨slot, w⟩
  · have htop : top.moves place p = [] := by
      simpa [Point.moves, hp] using h
    cases top with
    | run t r =>
      cases r with
      | deliver s' v d o =>
        by_cases he : s' = s
        · subst he
          have hk : (if s' = s' then deliverPart d else .away).Knows z.latch g := hk
          rw [if_pos rfl] at hk
          have hmoves := List.map_eq_nil_iff.1 htop
          rw [Run.moves] at hmoves
          exact absurd hmoves (handOver_ne_nil ho hk hz _ _)
        · exact .inl (if_neg he)
      | _ => exact .inl rfl
    | shutdown unwinding x =>
      cases x with
      | cancel i t s' d k =>
        by_cases he : s' = s
        · subst he
          have hk : (if s' = s' then deliverPart d else .away).Knows z.latch g := hk
          rw [if_pos rfl] at hk
          have hmoves := List.map_eq_nil_iff.1 htop
          rw [Shutdown.moves] at hmoves
          exact absurd hmoves (handOver_ne_nil ho hk hz _ _)
        · exact .inl (if_neg he)
      | _ => exact .inl rfl
    | _ => exact .inl rfl
  · by_cases he : slot = s
    · subst he
      have hw : w.moves z = [] := by
        simpa [Point.moves, hp, hz] using h
      simp only [Point.part, if_true] at hk ⊢
      cases w with
      | take => cases hw
      | wait w =>
        have hq : Latch.Point.moves z.latch (.wait w) = [] :=
          List.map_eq_nil_iff.2 (List.map_eq_nil_iff.1 hw)
        obtain ⟨a, he, hz⟩ := Latch.Point.eq_asleep ho hk hq
        cases he
        exact .inr ⟨a, rfl, hz⟩
    · exact .inl (if_neg he)

def Delivers (s : Nat) (pt : RingPoint ι α) : Prop := ∃ d, pt.part s = deliverPart d

theorem Part.share_eq_zero {x : Part α} (h : ∀ d, x ≠ deliverPart d) : x.share .storing = 0 ∧
    x.share .looking = 0 ∧ x.share (.latch .added) = 0 ∧ x.share (.latch .owed) = 0 := by
  cases x with
  | storing r => exact absurd rfl (h (.store r))
  | posting q => exact absurd rfl (h (.post q))
  | waiting w =>
    refine ⟨rfl, rfl, ?_, ?_⟩
    · rcases w with _ | _ | _ | _ | ⟨_, _ | _⟩ | _ <;> rfl
    · rcases w with _ | _ | _ | _ | ⟨_, _ | _⟩ | _ <;> rfl
  | _ => exact ⟨rfl, rfl, rfl, rfl⟩

theorem threadPart_finished_ne (c : Call ι α) (r : Reply α) (d : ResultSlot.Deliver α) :
    threadPart s (.finished c r : RingThread ι α) ≠ deliverPart d := by
  intro he
  unfold threadPart at he
  split at he
  · rename_i heq
    cases heq
  · split at he <;> cases d <;> cases he
  · cases d <;> cases he

theorem total_share_eq_zero {k : RingCrew ι α}
    (h : ∀ t ∈ k.threads, ∀ d, threadPart s t ≠ deliverPart d) :
    Crew.total (threadShare s) k .storing = 0 ∧ Crew.total (threadShare s) k .looking = 0 ∧
      Crew.total (threadShare s) k (.latch .added) = 0 ∧
      Crew.total (threadShare s) k (.latch .owed) = 0 := by
  have hzero (d : Duty) (hd : ∀ t ∈ k.threads, threadShare s t d = 0) :
      Crew.total (threadShare s) k d = 0 := by
    rw [Crew.total_apply]
    exact Crew.total_eq_zero hd
  exact ⟨hzero _ fun t ht => (Part.share_eq_zero (h t ht)).1,
    hzero _ fun t ht => (Part.share_eq_zero (h t ht)).2.1,
    hzero _ fun t ht => (Part.share_eq_zero (h t ht)).2.2.1,
    hzero _ fun t ht => (Part.share_eq_zero (h t ht)).2.2.2⟩

theorem Framed.awaiting {n : Nat} {pt : RingPoint ι α} (h : Framed n (.await s) pt) :
    ∃ w, pt = .await s w := by
  rcases pt with ⟨place, top, below⟩ | ⟨slot, w⟩
  · cases top with
    | loop i l => cases h.1
    | run t r => rcases Stacked.call h with ⟨i, hi⟩ | ⟨o, ho⟩ <;> contradiction
    | submit x => rcases Stacked.call h with ⟨i, hi⟩ | ⟨o, ho⟩ <;> contradiction
    | shutdown unwinding x => cases h.1
  · cases h
    exact ⟨w, rfl⟩

/-- What waiting for the task of a slot comes to: the answer tells what became of the task, except
that a task that a thread drops while unwinding looks as if it had panicked. Whoever waits in vain
waits for somebody who is handing the result over and can go on. -/
structure Awaited [BEq ι] (s : Nat) (log : Log ι α) (k : RingCrew ι α) : Prop where
  single : (submitted log).countP (ofSlot s) ≤ 1
  unrun : ∀ u, fates s log = [.dropped u] → (begun log).countP (ofSlot s) = 0
  returned : ∀ r, .finished (.await s) (.joined r) ∈ k.threads →
    ∀ v, r = .ok v ↔ fates s log = [.returned v]
  panicked : ∀ r, .finished (.await s) (.joined r) ∈ k.threads →
    (r = .error .panicked ↔ fates s log = [.panicked] ∨ fates s log = [.dropped true])
  cancelled : ∀ r, .finished (.await s) (.joined r) ∈ k.threads →
    (r = .error .cancelled ↔ fates s log = [.dropped false])
  answered : k.state.aborted = false → fates s log ≠ [] →
    ∀ pt, .running (.await s) pt ∈ k.threads → pt.moves k.state = [] →
      ∃ c' pt', .running c' pt' ∈ k.threads ∧ Delivers s pt' ∧ pt'.moves k.state ≠ []

variable [BEq ι] {c : Config} {cores : Nat} {log : Log ι α} {k : RingCrew ι α}

theorem told_of_run (hp : Pool.new c cores = .ok p)
    (h : Crew.Run calls (fun k c => Joins p.size k c) ⟨p, []⟩ log k) (hb : claims log < 2 ^ 63)
    {r : Except JoinError α} (hr : .finished (.await s) (.joined r) ∈ k.threads) :
    ∃ x, fates s log = [x] ∧ r = x.report := by
  obtain ⟨g, hh, hk⟩ := run_handed hp h hb s
  have hknows := (hk _ hr).knows
  rw [threadPart, if_pos rfl] at hknows
  obtain ⟨x, rfl, hx⟩ := hknows
  exact ⟨x, hh.fates, hx⟩

theorem exists_delivers (hp : Pool.new c cores = .ok p)
    (h : Crew.Run calls (fun k c => Joins p.size k c) ⟨p, []⟩ log k) (hb : claims log < 2 ^ 63)
    (hrun : k.state.aborted = false) (hfate : fates s log ≠ []) {pt : RingPoint ι α}
    (ht : .running (.await s) pt ∈ k.threads) (hstuck : pt.moves k.state = []) :
    ∃ c' pt', .running c' pt' ∈ k.threads ∧ Delivers s pt' ∧ pt'.moves k.state ≠ [] := by
  obtain ⟨g, hh, hk⟩ := run_handed hp h hb s
  obtain ⟨n, hn⟩ := hh.latch
  have howned := hn.balanced.owned
  have hlt : s < k.state.slots.length := by
    by_contra hge
    have := run_fates hp (fun _ _ hc => Joins.enters hc) h hb s
    rw [if_neg hge, Nat.le_zero, List.length_eq_zero_iff] at this
    exact hfate this
  have hz := getElem?_slots hlt
  by_contra hnone
  -- whoever hands a result over can go on, so nobody does
  have hdeliver : ∀ t ∈ k.threads, ∀ d, threadPart s t ≠ deliverPart d := by
    rintro (⟨c', pt'⟩ | ⟨c', r⟩) ht' d he
    · by_cases hmoves : pt'.moves k.state = []
      · rcases Point.eq_asleep howned hz (hk _ ht').2 hrun hmoves with h0 | ⟨a, h0, -⟩ <;>
        · rw [threadPart, h0] at he
          cases d <;> cases he
      · exact hnone ⟨c', pt', ht', ⟨d, he⟩, hmoves⟩
    · exact threadPart_finished_ne c' r d he
  obtain ⟨hstoring, hlooking, hadded, howed⟩ := total_share_eq_zero hdeliver
  have hopen := hh.opened hfate hstoring hlooking
  -- the latch is open and owes nothing, but the one who waits sleeps without a permit
  obtain ⟨hframed, hknows⟩ := hk _ ht
  obtain ⟨w, rfl⟩ := Framed.awaiting hframed
  rcases Point.eq_asleep howned hz hknows hrun hstuck with h0 | ⟨a, h0, hpermits⟩
  · rw [Point.part, if_pos rfl] at h0
    cases w <;> cases h0
  · have hone : 1 ≤ Crew.total (threadShare s) k (.latch .acquiring) := by
      rw [Crew.total_apply]
      refine le_trans ?_ (Crew.le_total (f := fun t => threadShare s t (.latch .acquiring)) ht)
      simp only [threadShare, threadPart, h0]
      exact Nat.le_refl 1
    have hidle : Crew.total (threadShare s) k (.latch .idle) +
        Latch.inside (fun r => Crew.total (threadShare s) k (.latch r)) ≤
          Crew.total (threadShare s) k .awaiting := by
      simp only [Latch.inside, Crew.total_apply, ← Crew.total_add]
      exact Crew.total_mono (fun t => (threadPart s t).idle_le) k
    have halone := hh.alone
    obtain ⟨-, -, -, hopened, hwaiting⟩ := hopen.balanced.counted
    have hopened := hopened rfl
    rw [Latch.inside] at hidle
    omega

theorem run_awaited (hp : Pool.new c cores = .ok p)
    (h : Crew.Run calls (fun k c => Joins p.size k c) ⟨p, []⟩ log k) (hb : claims log < 2 ^ 63)
    (s : Nat) : Awaited s log k where
  single := by
    have := run_slots hp (fun _ _ hc => Joins.enters hc) h hb s
    split at this <;> omega
  unrun u hu := by
    have := run_settles hp (fun _ _ hc => Joins.enters hc) h hb s
    rw [hu, List.countP_singleton] at this
    simp only [Fate.isDropped, if_true] at this
    split at this <;> omega
  returned r hr v := by
    obtain ⟨x, hx, rfl⟩ := told_of_run hp h hb hr
    rw [hx, Fate.report_eq_ok, List.singleton_inj]
  panicked r hr := by
    obtain ⟨x, hx, rfl⟩ := told_of_run hp h hb hr
    rw [hx, Fate.report_eq_panicked, List.singleton_inj, List.singleton_inj]
  cancelled r hr := by
    obtain ⟨x, hx, rfl⟩ := told_of_run hp h hb hr
    rw [hx, Fate.report_eq_cancelled, List.singleton_inj]
  answered hrun hfate _ ht hstuck := exists_delivers hp h hb hrun hfate ht hstuck

def askAnswer (i : Nat) : Call Nat Unit := .submit (.task i .small (.answer ()) none)

/-- The worker runs one task, which somebody waits for already. A second one is still queued when the
pool is dropped by a thread that is unwinding, and is waited for after that. -/
def farewell : List (Crew.Cue (Call Nat Unit)) :=
  .start (askAnswer 0) :: List.replicate (α := Crew.Cue (Call Nat Unit)) 12 (.move 0 0) ++
    .start (.await 0) :: List.replicate (α := Crew.Cue (Call Nat Unit)) 5 (.move 1 0) ++
    .start (.work 0) :: List.replicate (α := Crew.Cue (Call Nat Unit)) 15 (.move 2 0) ++
    .start (askAnswer 1) :: List.replicate (α := Crew.Cue (Call Nat Unit)) 12 (.move 3 0) ++
    .start (.shutdown true) :: List.replicate (α := Crew.Cue (Call Nat Unit)) 3 (.move 4 0) ++
    List.replicate (α := Crew.Cue (Call Nat Unit)) 2 (.move 2 0) ++
    List.replicate (α := Crew.Cue (Call Nat Unit)) 16 (.move 4 0) ++
    .start (.await 1) :: List.replicate (α := Crew.Cue (Call Nat Unit)) 2 (.move 5 0) ++
    List.replicate (α := Crew.Cue (Call Nat Unit)) 3 (.move 1 0)

theorem farewell_runs : ∃ (log : Log Nat Unit) (k : RingCrew Nat Unit),
    Crew.Run calls (fun k c => Joins alone.size k c) ⟨alone, []⟩ log k ∧
      k.threads[1]? = some (.finished (.await 0) (.joined (.ok ()))) ∧
      k.threads[5]? = some (.finished (.await 1) (.joined (.error .panicked))) ∧
      claims log = 2 ∧ fates 0 log = [.returned ()] ∧ fates 1 log = [.dropped true] ∧
      begun log = [⟨.small, .task 0 (.answer ()) none (some 0)⟩] ∧
      dropped log = [⟨.small, .task 1 (.answer ()) none (some 1)⟩] := by
  have hp : (Crew.play calls (Joins 1) farewell [] ⟨alone, []⟩).map (fun x =>
      (x.2.threads[1]?, x.2.threads[5]?, claims x.1, fates 0 x.1, fates 1 x.1, begun x.1,
        dropped x.1)) =
      some (some (.finished (.await 0) (.joined (.ok ()))),
        some (.finished (.await 1) (.joined (.error .panicked))), 2, [.returned ()],
        [.dropped true], [⟨.small, .task 0 (.answer ()) none (some 0)⟩],
        [⟨.small, .task 1 (.answer ()) none (some 1)⟩]) := by rfl
  obtain ⟨log, k, hrun, hx⟩ := Crew.exists_run_of_play (fun _ _ h => h) hp
  exact ⟨log, k, hrun, by simpa only [Prod.mk.injEq] using hx⟩

theorem run_awaited_farewell : ∃ (log : Log Nat Unit) (k : RingCrew Nat Unit),
    Pool.new narrow 0 = .ok alone ∧
      Crew.Run calls (fun k c => Joins alone.size k c) ⟨alone, []⟩ log k ∧
      claims log < 2 ^ 63 ∧ Awaited 0 log k ∧ Awaited 1 log k ∧
      k.threads[1]? = some (.finished (.await 0) (.joined (.ok ()))) ∧
      fates 0 log = [.returned ()] ∧ fates 1 log = [.dropped true] := by
  obtain ⟨log, k, hrun, ht, -, hc, h0, h1, -⟩ := farewell_runs
  have hnew : Pool.new narrow 0 = .ok alone := by rfl
  have hclaims : claims log < 2 ^ 63 := by rw [hc]; decide
  exact ⟨log, k, hnew, hrun, hclaims, run_awaited hnew hrun hclaims 0,
    run_awaited hnew hrun hclaims 1, ht, h0, h1⟩

theorem dropped_looks_panicked : ∃ (log : Log Nat Unit) (k : RingCrew Nat Unit),
    Pool.new narrow 0 = .ok alone ∧
      Crew.Run calls (fun k c => Joins alone.size k c) ⟨alone, []⟩ log k ∧
      .finished (.await 1) (.joined (.error .panicked)) ∈ k.threads ∧
      ⟨.small, .task 1 (.answer ()) none (some 1)⟩ ∈ dropped log ∧
      ∀ t ∈ begun log, t.closure.slot? ≠ some 1 := by
  obtain ⟨log, k, hrun, -, ht, -, -, -, hbegun, hdropped⟩ := farewell_runs
  exact ⟨log, k, rfl, hrun, List.mem_of_getElem? ht, by simp [hdropped], by simp [hbegun, Job.slot?]⟩

end Waiting

end WorkStealing.Pool
