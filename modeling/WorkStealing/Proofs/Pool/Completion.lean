import WorkStealing.Proofs.Pool.Joining

namespace WorkStealing.Pool

variable {ι α : Type}

section Writes

variable {z z' : ResultSlot α} {x y : Part α} {f : Option (Fate α)}

def Part.stored? : Part α → Option (Except JoinError α)
  | .storing r => some r
  | _ => none

def Part.leaves (result : Option (Except JoinError α)) : Part α → Option (Except JoinError α)
  | .storing r => some r
  | .taking => none
  | _ => result

theorem Part.eq_storing {r : Except JoinError α} (h : x.stored? = some r) : x = .storing r := by
  cases x <;> cases h
  rfl

/-- What has been written to a slot, the last first. -/
def writes (s : Nat) (log : Log ι α) : List (Except JoinError α) :=
  log.filterMap fun e => (e.point.part s).stored?

def Fate.writer : Fate α → Writer
  | .returned _ => .complete
  | .panicked | .dropped _ => .destructor

def Activity.written? (s : Nat) : RingActivity ι α → Option (Writer × Except JoinError α)
  | .run _ (.deliver s' w (.store r) _) => if s' = s then some (w, r) else none
  | .shutdown _ (.cancel _ _ s' (.store r) _) => if s' = s then some (.destructor, r) else none
  | _ => none

def Point.written? (s : Nat) : RingPoint ι α → Option (Writer × Except JoinError α)
  | .busy _ top _ => top.written? s
  | .await _ _ => none

def signed (s : Nat) (log : Log ι α) : List (Writer × Except JoinError α) :=
  log.filterMap fun e => e.point.written? s

theorem map_written? (s : Nat) (pt : RingPoint ι α) :
    (pt.written? s).map Prod.snd = (pt.part s).stored? := by
  rcases pt with ⟨place, top, below⟩ | ⟨s', w⟩
  · cases top with
    | run t r =>
      cases r with
      | deliver s' w d o =>
        by_cases he : s' = s <;> cases d <;>
          simp [Point.written?, Activity.written?, Point.part, Activity.part, he, Part.stored?,
            deliverPart]
      | _ => rfl
    | shutdown unwinding x =>
      cases x with
      | cancel i t s' d k =>
        by_cases he : s' = s <;> cases d <;>
          simp [Point.written?, Activity.written?, Point.part, Activity.part, he, Part.stored?,
            deliverPart]
      | _ => rfl
    | _ => rfl
  · by_cases he : s' = s <;> cases w <;>
      simp [Point.written?, Point.part, he, Part.stored?, awaitPart]

theorem map_signed (s : Nat) (log : Log ι α) : (signed s log).map Prod.snd = writes s log := by
  rw [signed, List.map_filterMap, writes]
  exact List.filterMap_congr fun e _ => map_written? s e.point

theorem Fate.writer_of_ok {x : Fate α} {v : α} (h : x.report = .ok v) : x.writer = .complete := by
  cases x <;> first | rfl | cases h

theorem Fate.writer_of_error {x : Fate α} {e : JoinError} (h : x.report = .error e) :
    x.writer = .destructor := by
  cases x <;> first | rfl | cases h

theorem Handing.result (h : Handing z x f z' y) : z'.result = x.leaves z.result := by
  cases h <;> rfl

theorem Handing.storing (h : Handing z x f z' y) :
    f.toList.length + x.share .storing = y.share .storing + x.stored?.toList.length := by
  cases h <;> rfl

theorem Handed.isFinished_iff {fs : List (Fate α)} {g : Progress α} {m : Duty → Nat}
    (h : Handed fs g z m) : z.isFinished = true ↔ z.latch.count.toInt = 0 := by
  obtain ⟨n, hn⟩ := h.latch
  have hcount := hn.balanced.count_eq
  rw [ResultSlot.isFinished, Latch.isReleased, decide_eq_true_eq, Int32.le_iff_toInt_le]
  change _ ≤ (0 : Int) ↔ _
  omega

def Progress.report? : Progress α → Option (Except JoinError α)
  | .stored x => some x.report
  | _ => none

theorem writes_cons (s : Nat)
    (e : Crew.Entry (Rings ι α) (Call ι α) (RingPoint ι α) (Reply α)) (log : Log ι α) :
    writes s (e :: log) = (e.point.part s).stored?.toList ++ writes s log := by
  cases h : (e.point.part s).stored? <;> simp [writes, h]

theorem writes_append (s : Nat) (recent log : Log ι α) :
    writes s (recent ++ log) = writes s recent ++ writes s log := List.filterMap_append

variable [BEq ι] {c : Config} {cores : Nat} {p : Rings ι α} {log : Log ι α} {k : RingCrew ι α}
  {allowed : RingCrew ι α → Call ι α → Prop}

theorem run_stores (hin : ∀ k c, allowed k c → Enters p.size c)
    (h : Crew.Run calls allowed ⟨p, []⟩ log k) (s : Nat) : (fates s log).length =
      Crew.total (fun t => threadShare s t .storing) k + (writes s log).length := by
  induction h with
  | refl => rfl
  | start _ d _ ih =>
    have henter : threadShare s (.running d d.enter : RingThread ι α) .storing = 0 := by
      rw [threadShare, threadPart_enter]
      split <;> rfl
    rw [Crew.total_start]
    change _ = threadShare s (.running d d.enter : RingThread ι α) .storing + _ + _
    rw [henter, Nat.zero_add, ih]
  | move hr ha ih =>
    rename_i log s' before after d pt a
    have hstep := (Point.hands ((run_framed hin hr).2 d pt (by simp)) ha s).handing.storing
    rw [Crew.total_split] at ih
    rw [fates_cons, writes_cons, List.length_append, List.length_append, Crew.total_split,
      Crew.total_state _ _ s', ih]
    simp only [threadShare, threadPart] at hstep ⊢
    omega

theorem run_reports (hp : Pool.new c cores = .ok p)
    (h : Crew.Run calls (fun k c => Joins p.size k c) ⟨p, []⟩ log k) (hb : claims log < 2 ^ 63)
    (s : Nat) : ∀ r ∈ writes s log, ∃ x, fates s log = [x] ∧ r = x.report := by
  induction h with
  | refl => simp [writes]
  | start _ _ _ ih => exact ih hb
  | move hr ha ih =>
    rename_i log s' before after d pt a
    have hone := run_fates hp (fun _ _ hc => Joins.enters hc) (hr.move ha) hb s
    have hb' := claims_lt (List.suffix_cons _ _) hb
    have hkeep {x : Fate α} (hx : fates s log = [x]) :
        fates s (⟨before.length, d, s', pt, a⟩ :: log) = [x] := by
      rw [fates_cons, hx] at hone ⊢
      cases hf : fate? s pt a with
      | none => rfl
      | some y =>
        simp only [hf, Option.toList_some, List.length_append, List.length_singleton] at hone
        split at hone <;> omega
    intro r hr'
    rw [writes_cons] at hr'
    rcases List.mem_append.1 hr' with hmem | hmem
    · obtain ⟨g, hh, hk⟩ := run_handed hp hr hb' s
      have hknows : (pt.part s).Knows _ g := (hk (.running d pt) (by simp)).2
      rw [Part.eq_storing (Option.mem_toList.1 hmem)] at hknows
      obtain ⟨x, hx, rfl⟩ := hknows
      exact ⟨x, hkeep (by rw [hh.fates, hx]; rfl), rfl⟩
    · obtain ⟨x, hx, rfl⟩ := ih hb' r hmem
      exact ⟨x, hkeep hx, rfl⟩

theorem run_written (hp : Pool.new c cores = .ok p)
    (h : Crew.Run calls (fun k c => Joins p.size k c) ⟨p, []⟩ log k) (hb : claims log < 2 ^ 63)
    (s : Nat) : ∃ g, Handed (fates s log) g (slotAt k.state s) (Crew.total (threadShare s) k) ∧
      (∀ t ∈ k.threads, Stays p.size s (slotAt k.state s).latch g t) ∧
      writes s log = g.report?.toList := by
  obtain ⟨g, hh, hk⟩ := run_handed hp h hb s
  refine ⟨g, hh, hk, ?_⟩
  have hcount := run_stores (fun _ _ hc => Joins.enters hc) h s
  have hreports := run_reports hp h hb s
  rw [← Crew.total_apply, hh.storing] at hcount
  cases g with
  | unmet =>
    rw [hh.fates] at hcount
    exact List.length_eq_zero_iff.1 (Nat.eq_zero_of_add_eq_zero_left hcount.symm)
  | met x =>
    rw [hh.fates] at hcount
    simp only [Progress.fate?, Progress.storing, Option.toList_some, List.length_singleton] at hcount
    exact List.length_eq_zero_iff.1 (by omega)
  | stored x =>
    rw [hh.fates] at hcount hreports
    simp only [Progress.fate?, Progress.storing, Option.toList_some, List.length_singleton,
      Nat.zero_add] at hcount hreports
    obtain ⟨r, hr⟩ := List.length_eq_one_iff.1 hcount.symm
    obtain ⟨y, hy, rfl⟩ := hreports r (by simp [hr])
    obtain rfl := (List.singleton_inj.1 hy)
    exact hr

end Writes

section Gone

/-- The task of a slot has returned or panicked, or has been dropped. -/
def Gone (s : Nat) (log : Log ι α) : Prop :=
  ∃ t ∈ ended log ++ dropped log, t.closure.slot? = some s

def Signs (w : Writer) : ResultSlot.Deliver α → Prop
  | .store r => ∀ x : Fate α, x.report = r → x.writer = w
  | .post _ => True

def Activity.Apt : RingActivity ι α → Prop
  | .run t (.deliver s w d _) => t.closure.slot? = some s ∧ Signs w d
  | .shutdown _ (.cancel _ t s d _) => t.closure.slot? = some s ∧ Signs .destructor d
  | _ => True

def Point.Apt : RingPoint ι α → Prop
  | .busy _ top _ => top.Apt
  | .await _ _ => True

def Turn.Apt : Turn ι α (RingActivity ι α) → Prop
  | .stay x => x.Apt
  | .call _ _ => True

variable {n : Nat} {c : Call ι α} {place : Place} {below : List (RingActivity ι α)}
  {p : Rings ι α} {s : Nat}

theorem apt_land (hs : below = [] ∨ ∃ b, Stacked n c place b below)
    {d : TurnMove (Ring (Item ι α)) ι α (RingActivity ι α)} (h : d.read Turn.Apt fun _ => True) :
    (Point.land place below d : RingMove ι α).read Point.Apt fun _ => True := by
  rcases d with ⟨p', x | ⟨x, k⟩⟩ | ⟨p', o⟩
  · exact h
  · cases k <;> trivial
  · cases below with
    | nil => trivial
    | cons x below =>
      obtain ⟨b, hb⟩ := hs.resolve_left (List.cons_ne_nil _ _)
      cases hb <;> cases o <;> trivial

theorem signs_verdict (unwinding : Bool) :
    Signs .destructor (.store (Completer.verdict unwinding) : ResultSlot.Deliver α) :=
  fun _ h => Fate.writer_of_error h

theorem Signs.of_go {w : Writer} {d e : ResultSlot.Deliver α} {z z' : ResultSlot α}
    (h : .go z' e ∈ d.moves z) : Signs w e := by
  cases d with
  | store r =>
    cases List.mem_singleton.1 h
    trivial
  | post q =>
    obtain ⟨b, -, hb⟩ := List.mem_map.1 h
    cases b with
    | go l q' =>
      cases hb
      trivial
    | done l x => cases hb

theorem apt_afterBegin (place : Place) (t : Item ι α) :
    (Activity.run t (Run.afterBegin place t) : RingActivity ι α).Apt := by
  rcases t with ⟨layout, ⟨id, work, panic, slot⟩ | ⟨id, lo, hi, panic⟩⟩
  · cases work with
    | answer v =>
      cases slot with
      | none => cases panic <;> trivial
      | some slot =>
        cases panic with
        | none => exact ⟨rfl, fun _ h => Fate.writer_of_ok h⟩
        | some payload => exact ⟨rfl, signs_verdict true⟩
    | _ => trivial
  · trivial

theorem Run.apt {t : Item ι α} {r : Run ι α} {a : TurnMove (Ring (Item ι α)) ι α (Run ι α)}
    (h : (Activity.run t r : RingActivity ι α).Apt) (ha : a ∈ r.moves place t p) :
    (a.map (.run t) : TurnMove (Ring (Item ι α)) ι α (RingActivity ι α)).read Turn.Apt
      fun _ => True := by
  cases Run.step ha with
  | begin _ => exact apt_afterBegin place t
  | deliver _ hd => exact ⟨h.1, .of_go hd⟩
  | _ => trivial

theorem apt_discard (unwinding : Bool) (i : Nat) (t : Item ι α) (k : Nat) :
    (Activity.shutdown unwinding (Shutdown.discard unwinding i t k) : RingActivity ι α).Apt := by
  cases hslot : t.closure.slot? with
  | none =>
    rw [Shutdown.discard_of_none hslot]
    trivial
  | some slot =>
    rw [Shutdown.discard_of_slot hslot]
    exact ⟨hslot, signs_verdict unwinding⟩

theorem Shutdown.apt {unwinding : Bool} {x : Shutdown (Ring.Pop (Item ι α)) ι α}
    {a : TurnMove (Ring (Item ι α)) ι α (Shutdown (Ring.Pop (Item ι α)) ι α)}
    (h : (Activity.shutdown unwinding x : RingActivity ι α).Apt) (ha : a ∈ x.moves unwinding p) :
    (a.map (.shutdown unwinding) : TurnMove (Ring (Item ι α)) ι α (RingActivity ι α)).read Turn.Apt
      fun _ => True := by
  cases Shutdown.step ha with
  | find _ _ _ => exact apt_discard unwinding _ _ _
  | cancel _ hd => exact ⟨h.1, .of_go hd⟩
  | _ => trivial

theorem Delivers.holds {pt : RingPoint ι α} (hd : Delivers s pt) (h : pt.Apt) :
    0 < pt.working (ofSlot s) + pt.discarding (ofSlot s) := by
  obtain ⟨d, hd⟩ := hd
  have haway : (.away : Part α) ≠ deliverPart d := by cases d <;> simp [deliverPart]
  rcases pt with ⟨place, top, below⟩ | ⟨slot, w⟩
  · cases top with
    | run t r =>
      cases r with
      | deliver s' w d' o =>
        by_cases he : s' = s
        · have ht : t.closure.slot? = some s := he ▸ h.1
          simp only [Point.working, Activity.working, ofSlot, ht, decide_true, Bool.toNat_true]
          omega
        · exact absurd ((if_neg he).symm.trans hd) haway
      | _ => exact absurd hd haway
    | shutdown unwinding x =>
      cases x with
      | cancel i t s' d' k =>
        by_cases he : s' = s
        · have ht : t.closure.slot? = some s := he ▸ h.1
          simp only [Point.discarding, Activity.discarding, ofSlot, ht, decide_true, Bool.toNat_true]
          omega
        · exact absurd ((if_neg he).symm.trans hd) haway
      | _ => exact absurd hd haway
    | _ => exact absurd hd haway
  · simp only [Point.part] at hd
    split at hd
    · cases w <;> cases d <;> cases hd
    · exact absurd hd haway

theorem Point.Apt.writer {pt : RingPoint ι α} (h : pt.Apt) {w : Writer} {r : Except JoinError α}
    (hw : pt.written? s = some (w, r)) {x : Fate α} (hx : x.report = r) : x.writer = w := by
  simp only [Point.written?] at hw
  split at hw
  · simp only [Activity.written?] at hw
    split at hw
    · simp only [Option.ite_none_right_eq_some, Option.some.injEq, Prod.mk.injEq] at hw
      obtain ⟨-, rfl, rfl⟩ := hw
      exact h.2 x hx
    · simp only [Option.ite_none_right_eq_some, Option.some.injEq, Prod.mk.injEq] at hw
      obtain ⟨-, rfl, rfl⟩ := hw
      exact h.2 x hx
    · cases hw
  · cases hw

variable [BEq ι]

theorem Point.apt {pt : RingPoint ι α} {a : RingMove ι α} (hs : Framed n c pt) (h : pt.Apt)
    (ha : a ∈ pt.moves p) : a.read Point.Apt fun _ => True := by
  cases Point.taken ha with
  | loop d hd =>
    obtain ⟨-, -, rfl, -⟩ := hs
    refine apt_land (n := n) (c := c) (.inl rfl) ?_
    rcases d with ⟨p', x | ⟨x, k⟩⟩ | ⟨p', o⟩ <;> trivial
  | run d hd => exact apt_land (.inr ⟨true, hs⟩) (Run.apt h hd)
  | submit d hd =>
    refine apt_land (.inr ⟨false, hs⟩) ?_
    rcases d with ⟨p', x | ⟨x, k⟩⟩ | ⟨p', o⟩ <;> trivial
  | shutdown d hd =>
    obtain ⟨-, -, rfl⟩ := hs
    exact apt_land (n := n) (c := c) (.inl rfl) (Shutdown.apt h hd)
  | await d hz hd => cases d <;> trivial

variable {c : Config} {cores : Nat} {log : Log ι α} {k : RingCrew ι α}
  {allowed : RingCrew ι α → Call ι α → Prop}

theorem run_apt (hin : ∀ k c, allowed k c → Enters p.size c)
    (h : Crew.Run calls allowed ⟨p, []⟩ log k) : ∀ c pt, .running c pt ∈ k.threads → pt.Apt := by
  induction h with
  | refl => simp
  | start _ d _ ih =>
    refine Crew.running_start ih ?_
    cases d <;> trivial
  | move hr ha ih =>
    rename_i log s' before after d q a
    refine Crew.running_land ih ?_
    rintro s' pt rfl
    exact Point.apt ((run_framed hin hr).2 d q (by simp)) (ih d q (by simp)) ha

theorem run_signed (hin : ∀ k c, allowed k c → Enters p.size c)
    (h : Crew.Run calls allowed ⟨p, []⟩ log k) {x : Fate α} (hx : writes s log = [x.report]) :
    signed s log = [(x.writer, x.report)] := by
  rw [← map_signed] at hx
  obtain ⟨⟨w, r⟩, hs, rfl : r = x.report⟩ := List.map_eq_singleton_iff.1 hx
  obtain ⟨e, he, hw⟩ := List.mem_filterMap.1 (hs ▸ List.mem_singleton_self _ : (w, _) ∈ signed s log)
  obtain ⟨recent, older, rfl⟩ := List.mem_iff_append.1 he
  obtain ⟨before, after, hr, -, -⟩ := h.entry (List.suffix_append _ _)
  have hapt := run_apt hin hr e.call e.point (by simp)
  rw [hs, hapt.writer hw rfl]

theorem run_gone (hp : Pool.new c cores = .ok p) (hin : ∀ k c, allowed k c → Enters p.size c)
    (h : Crew.Run calls allowed ⟨p, []⟩ log k) (hb : claims log < 2 ^ 63) (hg : Gone s log) :
    fates s log ≠ [] ∧ Crew.total (threadWorking (ofSlot s)) k = 0 ∧
      Crew.total (threadDiscarding s) k = 0 := by
  obtain ⟨t, ht, hslot⟩ := hg
  have hgone : 0 < (ended log ++ dropped log).countP (ofSlot s) :=
    List.countP_pos_iff.2 ⟨t, ht, decide_eq_true hslot⟩
  have hlength := length_fates s log
  have hworking := run_working (f := ofSlot s) h
  have hbegun := run_begun hp hin h hb s
  have hdiscards := run_discards hin h s
  have hsettled := run_settled hp hin h hb s
  rw [List.countP_append] at hgone
  have hone : (if s < k.state.slots.length then 1 else 0) ≤ 1 := by split <;> omega
  refine ⟨fun hnil => ?_, by omega, by omega⟩
  have hzero := List.length_eq_zero_iff.2 hnil
  omega

theorem run_none_deliver (hp : Pool.new c cores = .ok p)
    (hin : ∀ k c, allowed k c → Enters p.size c) (h : Crew.Run calls allowed ⟨p, []⟩ log k)
    (hb : claims log < 2 ^ 63) (hg : Gone s log) :
    ∀ t ∈ k.threads, ∀ d, threadPart s t ≠ deliverPart d := by
  obtain ⟨-, hworking, hdiscarding⟩ := run_gone hp hin h hb hg
  rintro (⟨c', pt⟩ | ⟨c', r⟩) ht d hd
  · have hholds := Delivers.holds ⟨d, hd⟩ (run_apt hin h c' pt ht)
    have h1 : pt.working (ofSlot s) ≤ Crew.total (threadWorking (ofSlot s)) k :=
      Crew.le_total (f := threadWorking (ofSlot s)) ht
    have h2 : pt.discarding (ofSlot s) ≤ Crew.total (threadDiscarding s) k :=
      Crew.le_total (f := threadDiscarding s) ht
    omega
  · exact threadPart_finished_ne c' r d hd

end Gone

section Later

variable [BEq ι] {c : Config} {cores : Nat} {p : Rings ι α} {log recent : Log ι α}
  {j k : RingCrew ι α} {s : Nat}

theorem run_later (hp : Pool.new c cores = .ok p)
    (h : Crew.Run calls (fun k c => Joins p.size k c) ⟨p, []⟩ log j)
    (h' : Crew.Run calls (fun k c => Joins p.size k c) j recent k)
    (hb : claims (recent ++ log) < 2 ^ 63) (s : Nat) :
    Latch.Later (slotAt j.state s).latch (slotAt k.state s).latch := by
  induction h' with
  | refl => exact ⟨id, fun _ => id⟩
  | start _ _ _ ih => exact ih hb
  | move hr ha ih =>
    rename_i recent s' before after d pt a
    have hrun := h.append hr
    have hone := run_fates hp (fun _ _ hc => Joins.enters hc) (hrun.move ha) hb s
    have hb' := claims_lt (List.suffix_cons _ _) hb
    obtain ⟨g, hh, hk⟩ := run_handed hp hrun hb' s
    obtain ⟨hframed, hknows⟩ := hk (.running d pt) (by simp)
    rw [Crew.total_split] at hh
    have hlength : ((fate? s pt a).toList ++ fates s (recent ++ log)).length ≤ 1 := by
      rw [fates_cons] at hone
      exact hone.trans (by split <;> omega)
    obtain ⟨g', hpassed⟩ := (Point.hands hframed ha s).handing.kept hh hknows hlength
    have ih := ih hb'
    rw [Move.fst_land]
    exact ⟨fun h0 => hpassed.later.opened (ih.opened h0),
      fun b h0 => hpassed.later.shared b (ih.shared b h0)⟩

theorem isFinished_iff (hp : Pool.new c cores = .ok p)
    (h : Crew.Run calls (fun k c => Joins p.size k c) ⟨p, []⟩ log k) (hb : claims log < 2 ^ 63)
    (s : Nat) : (slotAt k.state s).isFinished = true ↔ (slotAt k.state s).latch.count.toInt = 0 := by
  obtain ⟨g, hh, -⟩ := run_handed hp h hb s
  exact hh.isFinished_iff

theorem run_finished (hp : Pool.new c cores = .ok p)
    (h : Crew.Run calls (fun k c => Joins p.size k c) ⟨p, []⟩ log k) (hb : claims log < 2 ^ 63)
    (hf : (slotAt k.state s).isFinished = true) :
    s < k.state.slots.length ∧ ∃ r, writes s log = [r] := by
  obtain ⟨g, hh, -, hwrites⟩ := run_written hp h hb s
  obtain ⟨x, rfl⟩ := hh.stored (hh.isFinished_iff.1 hf)
  have hone := run_fates hp (fun _ _ hc => Joins.enters hc) h hb s
  rw [hh.fates] at hone
  refine ⟨?_, _, hwrites⟩
  by_contra hge
  rw [if_neg hge] at hone
  exact absurd hone (by simp [Progress.fate?])

theorem run_found (hp : Pool.new c cores = .ok p)
    (h : Crew.Run calls (fun k c => Joins p.size k c) ⟨p, []⟩ log k) (hb : claims log < 2 ^ 63)
    {d : Call ι α} (ht : .running d (.await s .take) ∈ k.threads) :
    ∃ r, (slotAt k.state s).result = some r ∧ writes s log = [r] := by
  obtain ⟨g, hh, hk, hwrites⟩ := run_written hp h hb s
  have hpart : threadPart s (.running d (.await s .take) : RingThread ι α) = .taking := if_pos rfl
  have hknows := (hk _ ht).knows
  obtain ⟨before, after, hsplit⟩ := List.mem_iff_append.1 ht
  obtain ⟨st, threads⟩ := k
  obtain rfl : threads = _ := hsplit
  rw [Crew.total_split, threadShare, hpart] at hh
  rw [hpart] at hknows
  obtain ⟨x, rfl, hx⟩ := hh.found hknows
  exact ⟨_, hx, hwrites⟩

end Later

section Prompt

variable {q : Rings ι α} {z : ResultSlot α} {s : Nat}

/-- A wait that starts when the latch is open does not get to wait. -/
def Prompt (s : Nat) : RingThread ι α → Prop
  | .running (.await s') pt => s' = s → pt = .await s (.wait .peek) ∨ pt = .await s .take
  | _ => True

theorem await_moves_peek (hf : z.isFinished = true) :
    (ResultSlot.Await.wait .peek).moves z = [.go z .take] := by
  have hcount : z.latch.count ≤ 0 := of_decide_eq_true hf
  simp [ResultSlot.Await.moves, Latch.Wait.moves, hcount, Move.embed, ResultSlot.setLatch]

variable [BEq ι]

theorem peek_moves (hz : q.slots[s]? = some z) (hq : q.aborted = false) (hf : z.isFinished = true) :
    Point.moves q (.await s (.wait .peek)) = [.go (q.setSlot s z) (.await s .take)] := by
  simp [Point.moves, hq, hz, await_moves_peek hf, Move.embed]

theorem take_moves {r : Except JoinError α} (hz : q.slots[s]? = some z) (hq : q.aborted = false)
    (hr : z.result = some r) : Point.moves q (.await s .take) =
      [.done (q.setSlot s { z with result := none }) (.joined r)] := by
  simp [Point.moves, hq, hz, ResultSlot.Await.moves, Move.embed, hr]

theorem Prompt.step {c : Call ι α} {pt : RingPoint ι α} {a : RingMove ι α}
    (hf : (slotAt q s).isFinished = true) (h : Prompt s (.running c pt)) (ha : a ∈ pt.moves q) :
    Prompt s (a.land c).2 := by
  cases c with
  | await s' =>
    by_cases he : s' = s
    · rcases h he with rfl | rfl
      · cases Point.taken ha with
        | await d hz hd =>
          rw [slotAt, hz, Option.getD_some] at hf
          rw [await_moves_peek hf] at hd
          obtain rfl := List.mem_singleton.1 hd
          exact fun _ => .inr rfl
      · cases Point.taken ha with
        | await d hz hd =>
          obtain rfl := List.mem_singleton.1 hd
          trivial
    · cases a with
      | go q' pt' => exact fun h' => absurd h' he
      | done q' r => trivial
  | _ => cases a <;> trivial

variable {c : Config} {cores : Nat} {p : Rings ι α} {log recent : Log ι α} {j k : RingCrew ι α}

theorem run_prompt (hp : Pool.new c cores = .ok p)
    (h : Crew.Run calls (fun k c => Joins p.size k c) ⟨p, []⟩ log j)
    (h' : Crew.Run calls (fun k c => Joins p.size k c) j recent k)
    (hb : claims (recent ++ log) < 2 ^ 63) (hf : (slotAt j.state s).isFinished = true) {i : Nat}
    {t : RingThread ι α} (ht : k.threads[i]? = some t) (hi : j.threads.length ≤ i) : Prompt s t := by
  refine h'.thread_to (fun i _ t => j.threads.length ≤ i → Prompt s t) ?_ ?_ ?_ ?_ ht hi
  · intro i t ht hi
    rw [List.getElem?_eq_none hi] at ht
    cases ht
  · intro older k c _ _ _
    cases c with
    | await s' => exact fun he => .inl (he ▸ rfl)
    | _ => trivial
  · exact fun _ _ _ _ _ ih => ih
  · intro older newer q before after d pt a hr ha _ hlog ih hi
    have hb' : claims (older ++ log) < 2 ^ 63 := by
      rw [← hlog, List.append_assoc] at hb
      exact claims_lt (List.suffix_append _ _) hb
    have hb0 := claims_lt (List.suffix_append _ _) hb'
    have hlater := run_later hp h hr hb' s
    have hopen := hlater.opened ((isFinished_iff hp h hb0 s).1 hf)
    exact (ih hi).step ((isFinished_iff hp (h.append hr) hb' s).2 hopen) ha

end Prompt

section Completed

variable [BEq ι] {c : Config} {cores : Nat} {p : Rings ι α} {log recent : Log ι α}
  {j k : RingCrew ι α}

structure Completed (s : Nat) (log : Log ι α) (k : RingCrew ι α) : Prop where
  traced : ∀ e ∈ log, (slotAt e.move.state s).result =
    (e.point.part s).leaves (slotAt e.before s).result
  written : ∀ r ∈ writes s log, writes s log = [r] ∧
    ∃ x, fates s log = [x] ∧ r = x.report ∧ signed s log = [(x.writer, r)]
  before : (slotAt k.state s).isFinished = true → writes s log ≠ []
  found : ∀ d, .running d (.await s .take) ∈ k.threads →
    ∃ r, (slotAt k.state s).result = some r ∧ writes s log = [r]
  joined : ∀ r, .finished (.await s) (.joined r) ∈ k.threads → writes s log = [r]
  gone : Gone s log → writes s log ≠ [] ∧ (slotAt k.state s).isFinished = true ∧
    (k.state.aborted = false → ∀ pt, .running (.await s) pt ∈ k.threads → pt.moves k.state ≠ [])

/-- What stays so from when the slot is seen finished, in `j`, to whatever comes after, in `k`. -/
structure Lasting (s : Nat) (log recent : Log ι α) (j k : RingCrew ι α) : Prop where
  finished : (slotAt k.state s).isFinished = true
  unwritten : writes s recent = []
  prompt : k.state.aborted = false → ∀ i pt, j.threads.length ≤ i →
    k.threads[i]? = some (.running (.await s) pt) → ∃ q,
      pt.moves k.state = [.go q (.await s .take)] ∨
        ∃ r, pt.moves k.state = [.done q (.joined r)] ∧ writes s log = [r]

theorem run_completed (hp : Pool.new c cores = .ok p)
    (h : Crew.Run calls (fun k c => Joins p.size k c) ⟨p, []⟩ log k) (hb : claims log < 2 ^ 63)
    (s : Nat) : Completed s log k where
  traced e he := by
    obtain ⟨recent, older, rfl⟩ := List.mem_iff_append.1 he
    obtain ⟨before, after, hr, -, ha⟩ := h.entry (List.suffix_append _ _)
    exact (Point.hands ((run_framed (fun _ _ hc => Joins.enters hc) hr).2 e.call e.point (by simp))
      ha s).handing.result
  written r hr := by
    obtain ⟨x, hx, rfl⟩ := run_reports hp h hb s r hr
    obtain ⟨g, hh, -, hwrites⟩ := run_written hp h hb s
    have hone : writes s log = [x.report] := by
      rw [hwrites] at hr ⊢
      rw [Option.mem_toList.1 hr]
      rfl
    exact ⟨hone, x, hx, rfl, run_signed (fun _ _ hc => Joins.enters hc) h hone⟩
  before hf := by
    obtain ⟨-, r, hr⟩ := run_finished hp h hb hf
    simp [hr]
  found d ht := run_found hp h hb ht
  joined r ht := by
    obtain ⟨g, hh, hk, hwrites⟩ := run_written hp h hb s
    have hknows := (hk _ ht).knows
    rw [threadPart, if_pos rfl] at hknows
    obtain ⟨x, rfl, rfl⟩ := hknows
    exact hwrites
  gone hg := by
    have hin : ∀ (k : RingCrew ι α) c, Joins p.size k c → Enters p.size c :=
      fun _ _ hc => Joins.enters hc
    have hnone := run_none_deliver hp hin h hb hg
    obtain ⟨hfates, -⟩ := run_gone hp hin h hb hg
    obtain ⟨hstoring, hlooking, -⟩ := total_share_eq_zero hnone
    obtain ⟨g, hh, hk⟩ := run_handed hp h hb s
    have hcount := (hh.opened hfates hstoring hlooking).balanced.count_eq
    have hf : (slotAt k.state s).isFinished = true := hh.isFinished_iff.2 hcount
    obtain ⟨-, r, hr⟩ := run_finished hp h hb hf
    refine ⟨by simp [hr], hf, fun hrun pt ht hstuck => ?_⟩
    obtain ⟨c', pt', ht', ⟨d, hd⟩, -⟩ := exists_delivers hp h hb hrun hfates ht hstuck
    exact hnone _ ht' d hd

theorem run_lasts (hp : Pool.new c cores = .ok p)
    (h : Crew.Run calls (fun k c => Joins p.size k c) ⟨p, []⟩ log j)
    (h' : Crew.Run calls (fun k c => Joins p.size k c) j recent k)
    (hb : claims (recent ++ log) < 2 ^ 63) {s : Nat} (hf : (slotAt j.state s).isFinished = true) :
    Lasting s log recent j k := by
  have hb0 := claims_lt (List.suffix_append _ _) hb
  have hrun := h.append h'
  have hf' : (slotAt k.state s).isFinished = true :=
    (isFinished_iff hp hrun hb s).2 ((run_later hp h h' hb s).opened ((isFinished_iff hp h hb0 s).1 hf))
  obtain ⟨-, r, hr⟩ := run_finished hp h hb0 hf
  obtain ⟨hlt, r', hr'⟩ := run_finished hp hrun hb hf'
  have hnone : writes s recent = [] := by
    have hlength := congrArg List.length hr'
    rw [writes_append, hr, List.length_append, List.length_singleton, List.length_singleton] at hlength
    exact List.length_eq_zero_iff.1 (by omega)
  refine ⟨hf', hnone, fun hq i pt hi ht => ?_⟩
  have hz := getElem?_slots hlt
  rcases run_prompt hp h h' hb hf ht hi rfl with rfl | rfl
  · exact ⟨_, .inl (peek_moves hz hq hf')⟩
  · obtain ⟨x, hx, hw⟩ := run_found hp hrun hb (List.mem_of_getElem? ht)
    refine ⟨_, .inr ⟨x, take_moves hz hq hx, ?_⟩⟩
    rwa [writes_append, hnone, List.nil_append] at hw

theorem run_completes (hp : Pool.new c cores = .ok p)
    (h : Crew.Run calls (fun k c => Joins p.size k c) ⟨p, []⟩ log j)
    (h' : Crew.Run calls (fun k c => Joins p.size k c) j recent k)
    (hb : claims (recent ++ log) < 2 ^ 63) (s : Nat) :
    Completed s (recent ++ log) k ∧
      ((slotAt j.state s).isFinished = true → Lasting s log recent j k) :=
  ⟨run_completed hp (h.append h') hb s, run_lasts hp h h' hb⟩

/-- The one who waits for the first task waits from before it runs, and the one who waits for the
second from after it has been dropped. -/
theorem run_completes_farewell : ∃ (log recent : Log Nat Unit) (j k : RingCrew Nat Unit),
    Pool.new narrow 0 = .ok alone ∧
      Crew.Run calls (fun k c => Joins alone.size k c) ⟨alone, []⟩ log j ∧
      Crew.Run calls (fun k c => Joins alone.size k c) j recent k ∧
      claims (recent ++ log) < 2 ^ 63 ∧
      (Completed 0 (recent ++ log) k ∧ Gone 0 (recent ++ log) ∧
        .finished (.await 0) (.joined (.ok ())) ∈ k.threads ∧ writes 0 (recent ++ log) = [.ok ()] ∧
        signed 0 (recent ++ log) = [(.complete, .ok ())]) ∧
      (slotAt j.state 1).isFinished = true ∧ Lasting 1 log recent j k ∧
        .finished (.await 1) (.joined (.error .panicked)) ∈ k.threads ∧
        writes 1 log = [.error .panicked] ∧
        signed 1 (recent ++ log) = [(.destructor, .error .panicked)] := by
  have hp : ((Crew.play calls (Joins 1) (farewell.take 70) [] ⟨alone, []⟩).bind fun y =>
      (Crew.play calls (Joins 1) (farewell.drop 70) [] y.2).map fun z =>
        (claims (z.1 ++ y.1), ended (z.1 ++ y.1), (slotAt y.2.state 1).isFinished,
          z.2.threads[1]?, z.2.threads[5]?, signed 0 (z.1 ++ y.1), signed 1 (z.1 ++ y.1))) =
      some (2, [⟨.small, .task 0 (.answer ()) none (some 0)⟩], true,
        some (.finished (.await 0) (.joined (.ok ()))),
        some (.finished (.await 1) (.joined (.error .panicked))), [(.complete, .ok ())],
        [(.destructor, .error .panicked)]) := by rfl
  obtain ⟨log, j, recent, k, hj, hk, hx⟩ := Crew.exists_runs_of_play (fun _ _ h => h) hp
  simp only [Prod.mk.injEq] at hx
  obtain ⟨hclaims, hended, hf, h0, h1, hsigned0, hsigned1⟩ := hx
  have hnew : Pool.new narrow 0 = .ok alone := by rfl
  have hb : claims (recent ++ log) < 2 ^ 63 := by rw [hclaims]; decide
  have hmem0 := List.mem_of_getElem? h0
  have hmem1 := List.mem_of_getElem? h1
  have hgone : Gone 0 (recent ++ log) :=
    ⟨⟨.small, .task 0 (.answer ()) none (some 0)⟩, by simp [hended], rfl⟩
  obtain ⟨hcompleted, -⟩ := run_completes hnew hj hk hb 0
  obtain ⟨hlater, hlasting⟩ := run_completes hnew hj hk hb 1
  have hwrites := hlater.joined _ hmem1
  rw [writes_append, (hlasting hf).unwritten, List.nil_append] at hwrites
  exact ⟨log, recent, j, k, hnew, hj, hk, hb, ⟨hcompleted, hgone, hmem0, hcompleted.joined _ hmem0, hsigned0⟩,
    hf, hlasting hf, hmem1, hwrites, hsigned1⟩

end Completed

end WorkStealing.Pool
