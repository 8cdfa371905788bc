import WorkStealing.Proofs.Pool.Handing
import WorkStealing.Proofs.Pool.Ledger

namespace WorkStealing.Pool

variable {ι α : Type}

def fates (s : Nat) (log : Log ι α) : List (Fate α) := log.filterMap fun e => fate? s e.point e.move

def Fate.isDropped : Fate α → Bool
  | .dropped _ => true
  | _ => false

def ofSlot (s : Nat) (t : Item ι α) : Bool := t.closure.slot? = some s

def answers (s : Nat) (t : Item ι α) : Bool := ofSlot s t && t.closure.fate?.isSome

section Slotless

def Push.item? : Push (Ring.Push (Item ι α)) ι α → Option (Item ι α)
  | .aim t | .offer t _ _ _ => some t
  | .record _ => none

def Slotless : RingPoint ι α → Prop
  | .busy _ (.submit (.pushChunk _ _ _ x)) _ => ∀ t ∈ x.item?, t.closure.slot? = none
  | _ => True

variable {n : Nat} {c : Call ι α} {place : Place} {below : List (RingActivity ι α)}
  {p : Rings ι α}

theorem Stacked.slotless_resume {x : RingActivity ι α} {b : Bool}
    (h : Stacked n c place b (x :: below)) (policy : PanicPolicy) (o : Outcome) :
    Slotless (.busy place (x.resume policy o) below) := by
  cases h with
  | worker hi => trivial
  | run h => trivial
  | inline h =>
    rename_i handle?
    cases o <;> cases handle? <;> trivial

theorem slotless_land {X : Type} (act : X → RingActivity ι α)
    (h : ∀ x, Slotless (.busy place (act x) below))
    (hs : below = [] ∨ ∃ b, Stacked n c place b below) (d : TurnMove (Ring (Item ι α)) ι α X) :
    (Point.land place below (d.map act) : RingMove ι α).read Slotless fun _ => True := by
  rcases d with ⟨p', x | ⟨x, k⟩⟩ | ⟨p', o⟩
  · exact h x
  · cases k <;> trivial
  · cases below with
    | nil => trivial
    | cons x below =>
      obtain ⟨b, hb⟩ := hs.resolve_left (List.cons_ne_nil _ _)
      exact hb.slotless_resume _ o

variable {cap : Nat} {G : Nat → Ghost (Item ι α)}

theorem Push.slotless {x : Push (Ring.Push (Item ι α)) ι α}
    {a : Move (Rings ι α) (Push (Ring.Push (Item ι α)) ι α) (Except (Item ι α) Nat)} {m : Nat}
    (hk : (x.view n m false).Knows cap G) (h : ∀ t ∈ x.item?, t.closure.slot? = none)
    (ha : a ∈ x.moves p) :
    a.read (fun x => ∀ t ∈ x.item?, t.closure.slot? = none) fun _ => True := by
  cases Push.step ha with
  | place _ _ => exact fun _ hu => by cases hu
  | next _ he _ =>
    obtain rfl := (Ring.Push.Knows.brings hk).error he
    exact h
  | refuse _ _ _ | record => trivial
  | _ => exact h

variable [BEq ι]

theorem Submit.slotless {x : Submit (Ring.Push (Item ι α)) ι α}
    {a : TurnMove (Ring (Item ι α)) ι α (Submit (Ring.Push (Item ι α)) ι α)}
    (hs : Stacked n c place false below) (hk : (x.view n).Knows cap G)
    (h : Slotless (.busy place (.submit x) below)) (ha : a ∈ x.moves p) :
    (Point.land place below (a.map .submit) : RingMove ι α).read Slotless fun _ => True := by
  cases Submit.step ha with
  | @woken q w handle? hw => cases handle? <;> trivial
  | cut _ =>
    rintro t ⟨⟩
    rfl
  | pushChunk hp => exact Push.slotless hk h hp
  | @leave o =>
    cases below with
    | nil => trivial
    | cons x below => exact hs.slotless_resume _ o
  | _ => trivial

theorem Point.slotless {pt : RingPoint ι α} {a : RingMove ι α} (hs : Framed n c pt)
    (hk : (pt.view n).Knows cap G) (h : Slotless pt) (ha : a ∈ pt.moves p) :
    a.read Slotless fun _ => True := by
  cases Point.taken ha with
  | @loop place i l below d hd =>
    obtain ⟨rfl, rfl, rfl, hi⟩ := hs
    exact slotless_land (n := n) (c := .work i) (.loop i) (fun _ => trivial) (.inl rfl) d
  | @run place t r below d hd =>
    exact slotless_land (.run t) (fun _ => trivial) (.inr ⟨true, hs⟩) d
  | submit d hd => exact Submit.slotless hs hk h hd
  | @shutdown place unwinding x below d hd =>
    obtain ⟨rfl, rfl, rfl⟩ := hs
    exact slotless_land (n := n) (c := .shutdown unwinding) (.shutdown unwinding)
      (fun _ => trivial) (.inl rfl) d
  | await d hz hd => cases d <;> trivial

theorem exists_of_mem_submit {place : Place} {x : Submit (Ring.Push (Item ι α)) ι α}
    {below : List (RingActivity ι α)} {a : RingMove ι α}
    (ha : a ∈ Point.moves p (.busy place (.submit x) below)) :
    ∃ d ∈ x.moves p, Point.land place below (d.map .submit) = a := by
  cases Point.taken ha with
  | submit d hd => exact ⟨d, hd, rfl⟩

theorem Point.slot_of_submitted {pt : RingPoint ι α} {a : RingMove ι α} {t : Item ι α} {s : Nat}
    (h : Slotless pt) (ha : a ∈ pt.moves p) (hd : deed pt a = .submitted t)
    (ht : t.closure.slot? = some s) : (p.slots.length = s ∧ a.state.slots.length = s + 1) ∧
      t.closure.fate?.isSome := by
  unfold deed at hd
  split at hd
  · cases hd
  · cases hd
    obtain ⟨d, hd, he⟩ := exists_of_mem_submit ha
    cases Submit.step hd with
    | @answer id layout v panic =>
      cases he
      cases ht
      exact ⟨⟨rfl, List.length_append⟩, by cases panic <;> rfl⟩
    | task _ =>
      cases he
      cases ht
    | _ => cases he
  · cases hd
    have := h t rfl
    rw [ht] at this
    cases this
  · cases hd
    obtain ⟨d, hd, he⟩ := exists_of_mem_submit ha
    cases Submit.step hd with
    | rest _ _ =>
      cases he
      cases ht
    | _ => cases he
  · cases hd
  · cases hd

end Slotless

section Discarding

variable {n : Nat} {c : Call ι α} {place : Place} {below : List (RingActivity ι α)}
  {p : Rings ι α} {f : Item ι α → Bool}

def Activity.discarding (f : Item ι α → Bool) : RingActivity ι α → Nat
  | .shutdown _ (.cancel _ t _ _ _) | .shutdown _ (.drop _ t _) => (f t).toNat
  | _ => 0

def Point.discarding (f : Item ι α → Bool) : RingPoint ι α → Nat
  | .busy _ top _ => top.discarding f
  | .await _ _ => 0

theorem Point.discarding_le (f : Item ι α → Bool) (pt : RingPoint ι α) :
    pt.discarding f ≤ (pt.view n).inHand f := by
  rcases pt with ⟨place, top, below⟩ | ⟨slot, w⟩
  · cases top with
    | shutdown unwinding x => cases x <;> first | exact Nat.le_refl _ | exact Nat.zero_le _
    | _ => exact Nat.zero_le _
  · exact Nat.zero_le _

theorem discarding_land {X : Type} {act : X → RingActivity ι α} (h : ∀ x, (act x).discarding f = 0)
    (hs : below = [] ∨ ∃ b, Stacked n c place b below) (d : TurnMove (Ring (Item ι α)) ι α X) :
    (Point.land place below (d.map act) : RingMove ι α).read (Point.discarding f)
      (fun _ => 0) = 0 := by
  rcases d with ⟨p', x | ⟨x, k⟩⟩ | ⟨p', o⟩
  · exact h x
  · cases k <;> rfl
  · cases below with
    | nil => rfl
    | cons x below =>
      obtain ⟨b, hb⟩ := hs.resolve_left (List.cons_ne_nil _ _)
      cases hb <;> rfl

theorem Job.isDropped_fate {j : Job ι α} {x : Fate α} (h : j.fate? = some x) :
    x.isDropped = false := by
  unfold Job.fate? at h
  split at h <;> cases h <;> rfl

theorem countP_ran (pt : RingPoint ι α) (a : RingMove ι α) (s : Nat) :
    (fate? s pt a).toList.countP (fun x => !x.isDropped) = (deed pt a).begins (answers s) := by
  unfold fate?
  split
  · rename_i t _
    by_cases ht : t.closure.slot? = some s
    · simp only [deed, Deed.begins, answers, ofSlot, ht, if_true, decide_true, Bool.true_and]
      cases hx : t.closure.fate? with
      | none => rfl
      | some x => simp [Job.isDropped_fate hx]
    · simp [deed, Deed.begins, answers, ofSlot, ht]
  · split <;> rfl
  · rename_i hrun _
    have hbegins : (deed pt a).begins (answers s) = 0 := by
      unfold deed
      split <;> first | rfl | exact absurd rfl (hrun _ _ _)
    rw [hbegins]
    rfl

theorem countP_dropped_of_begin (t : Item ι α) (a : RingMove ι α) (s : Nat) :
    (fate? s (.busy place (.run t .begin) below) a).toList.countP Fate.isDropped = 0 := by
  refine List.countP_eq_zero.2 fun x hx => ?_
  simp only [fate?] at hx
  split at hx
  · simp [Job.isDropped_fate (Option.mem_toList.1 hx)]
  · cases hx

theorem discarding_discard (unwinding : Bool) (i : Nat) (t : Item ι α) (d : Ring.Pop (Item ι α))
    (k s : Nat) : (fate? s (.busy place (.shutdown unwinding (.drain i d k)) below)
      (.go p (.busy place (.shutdown unwinding (Shutdown.discard unwinding i t k))
        below))).toList.countP Fate.isDropped = (Activity.shutdown unwinding (Shutdown.discard unwinding i t k) :
          RingActivity ι α).discarding (ofSlot s) := by
  cases hslot : t.closure.slot? with
  | none =>
    rw [Shutdown.discard_of_none hslot]
    simp [fate?, Activity.discarding, ofSlot, hslot]
  | some slot =>
    rw [Shutdown.discard_of_slot hslot]
    by_cases he : slot = s <;>
      simp [fate?, Activity.discarding, ofSlot, hslot, he, Fate.isDropped]

theorem Shutdown.discards {unwinding : Bool} {x : Shutdown (Ring.Pop (Item ι α)) ι α}
    {a : TurnMove (Ring (Item ι α)) ι α (Shutdown (Ring.Pop (Item ι α)) ι α)}
    (ha : a ∈ x.moves unwinding p) (s : Nat) :
    let pt : RingPoint ι α := .busy .caller (.shutdown unwinding x) []
    let b : RingMove ι α := Point.land .caller [] (a.map (.shutdown unwinding))
    (fate? s pt b).toList.countP Fate.isDropped + pt.discarding (ofSlot s) =
      (Pool.deed pt b).dropped?.toList.countP (ofSlot s) +
        b.read (Point.discarding (ofSlot s)) fun _ => 0 := by
  cases Shutdown.step ha with
  | @find i k r r' d pos t hi hr h =>
    exact (discarding_discard unwinding i t d k s).trans (Nat.zero_add _).symm
  | @drop i k t => exact (Nat.zero_add _).trans (countP_toList_some t).symm
  | _ => rfl

variable [BEq ι]

theorem Point.discards {pt : RingPoint ι α} {a : RingMove ι α} (hs : Framed n c pt)
    (ha : a ∈ pt.moves p) (s : Nat) :
    (fate? s pt a).toList.countP Fate.isDropped + pt.discarding (ofSlot s) =
      (deed pt a).dropped?.toList.countP (ofSlot s) +
        a.read (Point.discarding (ofSlot s)) fun _ => 0 := by
  cases Point.taken ha with
  | loop d hd =>
    obtain ⟨-, -, rfl, -⟩ := hs
    rw [discarding_land (n := n) (c := c) (fun _ => rfl) (.inl rfl)]
    rfl
  | @run place t r below d hd =>
    rw [discarding_land (fun _ => rfl) (.inr ⟨true, hs⟩)]
    cases r with
    | begin => exact congrArg (· + 0) (countP_dropped_of_begin t _ s)
    | _ => rfl
  | @submit place x below d hd =>
    rw [discarding_land (fun _ => rfl) (.inr ⟨false, hs⟩)]
    generalize (Point.land place below (d.map .submit) : RingMove ι α) = b
    rw [dropped?_submit]
    rfl
  | shutdown d hd =>
    obtain ⟨rfl, rfl, rfl⟩ := hs
    exact Shutdown.discards hd s
  | await d hz hd => cases d <;> rfl

end Discarding

section Runs

def threadDiscarding (s : Nat) : RingThread ι α → Nat
  | .running _ pt => pt.discarding (ofSlot s)
  | .finished _ _ => 0

theorem fates_cons (s : Nat)
    (e : Crew.Entry (Rings ι α) (Call ι α) (RingPoint ι α) (Reply α)) (log : Log ι α) :
    fates s (e :: log) = (fate? s e.point e.move).toList ++ fates s log := by
  cases h : fate? s e.point e.move <;> simp [fates, h]

theorem length_fates (s : Nat) (log : Log ι α) : (fates s log).length =
    (fates s log).countP Fate.isDropped + (fates s log).countP fun x => !x.isDropped := by
  rw [List.length_eq_countP_add_countP Fate.isDropped]
  simp

theorem countP_fates (s : Nat) (log : Log ι α) :
    (fates s log).countP (fun x => !x.isDropped) = (begun log).countP (answers s) := by
  induction log with
  | nil => rfl
  | cons e log ih =>
    rw [fates_cons, List.countP_append, countP_begun_cons, ih, countP_ran, Nat.add_comm]

variable [BEq ι] {c : Config} {cores : Nat} {p : Rings ι α} {log : Log ι α} {k : RingCrew ι α}
  {allowed : RingCrew ι α → Call ι α → Prop}

theorem run_discards (hin : ∀ k c, allowed k c → Enters p.size c)
    (h : Crew.Run calls allowed ⟨p, []⟩ log k) (s : Nat) :
    (fates s log).countP Fate.isDropped =
      (dropped log).countP (ofSlot s) + Crew.total (threadDiscarding s) k := by
  induction h with
  | refl => rfl
  | start _ d _ ih =>
    rw [Crew.total_start, ih]
    cases d <;> simp [threadDiscarding, calls, Call.enter, Point.discarding, Activity.discarding]
  | move hr ha ih =>
    rename_i log s' before after d pt a
    have hstep := Point.discards ((run_framed hin hr).2 d pt (by simp)) ha s
    have hland : threadDiscarding s (a.land d).2 =
        a.read (Point.discarding (ofSlot s)) fun _ => 0 := by cases a <;> rfl
    rw [Crew.total_split, Crew.total_state _ _ s', hland, dropped_cons, fates_cons,
      List.countP_append, List.countP_append]
    rw [Crew.total_split] at ih
    change _ = _ + (pt.discarding (ofSlot s) + _) at ih
    dsimp only
    omega

theorem run_slotless (hp : Pool.new c cores = .ok p)
    (hin : ∀ k c, allowed k c → Enters p.size c) (h : Crew.Run calls allowed ⟨p, []⟩ log k)
    (hb : claims log < 2 ^ 63) : ∀ c pt, .running c pt ∈ k.threads → Slotless pt := by
  induction h with
  | refl => simp
  | start _ d _ ih =>
    refine Crew.running_start (ih hb) ?_
    cases d <;> trivial
  | move hr ha ih =>
    rename_i log s before after d q a
    have hb' := claims_lt (List.suffix_cons _ _) hb
    have ih := ih hb'
    obtain ⟨G, -, hk⟩ := run_firm hp hin hr hb' fun _ => true
    obtain ⟨hframed, hknows⟩ := hk (.running d q) (by simp)
    refine Crew.running_land ih ?_
    rintro s' pt rfl
    exact Point.slotless hframed hknows (ih d q (by simp)) ha

theorem run_slots (hp : Pool.new c cores = .ok p)
    (hin : ∀ k c, allowed k c → Enters p.size c) (h : Crew.Run calls allowed ⟨p, []⟩ log k)
    (hb : claims log < 2 ^ 63) (s : Nat) :
    (submitted log).countP (ofSlot s) ≤ if s < k.state.slots.length then 1 else 0 := by
  induction h with
  | refl => exact Nat.zero_le _
  | start _ _ _ ih => exact ih hb
  | move hr ha ih =>
    rename_i log s' before after d q a
    have hb' := claims_lt (List.suffix_cons _ _) hb
    have ih := ih hb'
    have hlength := (Point.hands ((run_framed hin hr).2 d q (by simp)) ha s).length
    rw [countP_submitted_cons, Move.fst_land]
    have hsubmits : (deed q a).submits (ofSlot s) = 0 ∨
        (deed q a).submits (ofSlot s) = 1 ∧ s'.slots.length = s ∧ a.state.slots.length = s + 1 := by
      cases hd : deed q a with
      | submitted t =>
        by_cases ht : t.closure.slot? = some s
        · have hslotless := run_slotless hp hin hr hb' d q (by simp)
          refine .inr ⟨?_, (Point.slot_of_submitted hslotless ha hd ht).1⟩
          simp only [Deed.submits, ofSlot, decide_eq_true ht, Bool.toNat_true]
        · left
          simp only [Deed.submits, ofSlot, decide_eq_false ht, Bool.toNat_false]
      | _ => exact .inl rfl
    dsimp only at ih ⊢
    rcases hsubmits with h0 | ⟨h1, hs, hs'⟩
    · rw [h0]
      refine ih.trans ?_
      split
      · rw [if_pos (by omega)]
      · exact Nat.zero_le _
    · rw [if_neg (by omega)] at ih
      rw [h1, if_pos (by omega)]
      omega

theorem run_answers (hp : Pool.new c cores = .ok p)
    (hin : ∀ k c, allowed k c → Enters p.size c) (h : Crew.Run calls allowed ⟨p, []⟩ log k)
    (hb : claims log < 2 ^ 63) (s : Nat) :
    (submitted log).countP (fun t => ofSlot s t && !t.closure.fate?.isSome) = 0 := by
  induction h with
  | refl => rfl
  | start _ _ _ ih => exact ih hb
  | move hr ha ih =>
    rename_i log s' before after d q a
    have hb' := claims_lt (List.suffix_cons _ _) hb
    rw [countP_submitted_cons, ih hb']
    have hslotless := run_slotless hp hin hr hb' d q (by simp)
    cases hd : deed q a with
    | submitted t =>
      by_cases ht : t.closure.slot? = some s
      · have hfate := (Point.slot_of_submitted hslotless ha hd ht).2
        simp [Deed.submits, hfate]
      · simp [Deed.submits, ofSlot, ht]
    | _ => rfl

theorem run_begun (hp : Pool.new c cores = .ok p)
    (hin : ∀ k c, allowed k c → Enters p.size c) (h : Crew.Run calls allowed ⟨p, []⟩ log k)
    (hb : claims log < 2 ^ 63) (s : Nat) :
    (begun log).countP (ofSlot s) = (fates s log).countP fun x => !x.isDropped := by
  obtain ⟨G, hfirm, -⟩ := run_firm hp hin h hb fun t => ofSlot s t && !t.closure.fate?.isSome
  have hkept := hfirm.kept
  rw [run_answers hp hin h hb s] at hkept
  have hnone : (begun log).countP (fun t => ofSlot s t && !t.closure.fate?.isSome) = 0 := by omega
  rw [countP_fates]
  refine List.countP_congr fun t ht => ?_
  have hfate : ofSlot s t = true → t.closure.fate?.isSome = true := by
    simpa [Option.isSome_iff_ne_none] using List.countP_eq_zero.1 hnone t ht
  exact ⟨fun hs => Bool.and_eq_true_iff.2 ⟨hs, hfate hs⟩, fun hs => (Bool.and_eq_true_iff.1 hs).1⟩

theorem run_settled (hp : Pool.new c cores = .ok p)
    (hin : ∀ k c, allowed k c → Enters p.size c) (h : Crew.Run calls allowed ⟨p, []⟩ log k)
    (hb : claims log < 2 ^ 63) (s : Nat) :
    (begun log).countP (ofSlot s) + (dropped log).countP (ofSlot s) +
      Crew.total (threadDiscarding s) k ≤ if s < k.state.slots.length then 1 else 0 := by
  obtain ⟨G, hfirm, -⟩ := run_firm hp hin h hb (ofSlot s)
  have hkept := hfirm.kept
  have hhand : Crew.total (threadDiscarding s) k ≤
      tot (View.inHand (ofSlot s)) (Crew.total (share p.size) k) := by
    rw [tot_total_share]
    refine Crew.total_mono (fun t => ?_) k
    cases t with
    | running c pt => exact pt.discarding_le _
    | finished c r => exact Nat.zero_le _
  have hslots := run_slots hp hin h hb s
  omega

theorem run_settles (hp : Pool.new c cores = .ok p)
    (hin : ∀ k c, allowed k c → Enters p.size c) (h : Crew.Run calls allowed ⟨p, []⟩ log k)
    (hb : claims log < 2 ^ 63) (s : Nat) :
    (begun log).countP (ofSlot s) + (fates s log).countP Fate.isDropped ≤
      if s < k.state.slots.length then 1 else 0 := by
  rw [run_discards hin h, ← Nat.add_assoc]
  exact run_settled hp hin h hb s

theorem run_fates (hp : Pool.new c cores = .ok p)
    (hin : ∀ k c, allowed k c → Enters p.size c) (h : Crew.Run calls allowed ⟨p, []⟩ log k)
    (hb : claims log < 2 ^ 63) (s : Nat) :
    (fates s log).length ≤ if s < k.state.slots.length then 1 else 0 := by
  have hlength := length_fates s log
  have hran : (fates s log).countP (fun x => !x.isDropped) ≤ (begun log).countP (ofSlot s) := by
    rw [countP_fates]
    exact List.countP_mono_left fun t _ ht => (Bool.and_eq_true_iff.1 ht).1
  have hsettles := run_settles hp hin h hb s
  omega

end Runs

end WorkStealing.Pool
