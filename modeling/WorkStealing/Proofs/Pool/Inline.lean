import WorkStealing.Proofs.Pool.Placing

namespace WorkStealing.Pool

variable {ι α : Type}

def Outcome.andThen : Outcome → Outcome → Outcome
  | .returned, o => o
  | .panicked payload, _ => .panicked payload

mutual

/-- What the history of a pool gains by an order that runs inline, earliest first, and how the order
ends. A panic of a child ends its parent. -/
def Order.inlined : Order ι α → List (Event ι) × Outcome
  | .task id _ work panic =>
    (.began (.task id) .caller false :: (work.inlined.1 ++ [.ended (.task id) .caller]),
      work.inlined.2.andThen (.ofPanic panic))
  | .range id lo hi panic =>
    if lo < hi then
      ([.began (.chunk id lo hi) .caller false, .ended (.chunk id lo hi) .caller],
        .ofPanic (panic.bind fun r => r.at? .caller))
    else ([], .returned)

def Work.inlined : Work α (Order ι α) → List (Event ι) × Outcome
  | .spawn orders => Order.allInlined orders
  | _ => ([], .returned)

def Order.allInlined : List (Order ι α) → List (Event ι) × Outcome
  | [] => ([], .returned)
  | o :: orders =>
    match o.inlined.2 with
    | .returned => (o.inlined.1 ++ (Order.allInlined orders).1, (Order.allInlined orders).2)
    | .panicked payload => (o.inlined.1, .panicked payload)

end

def Aside (p q : Rings ι α) (es : List (Event ι)) : Prop :=
  ∃ slots handles, q = { p with slots, handles, history := es.reverse ++ p.history }

structure Full (p : Rings ι α) (cap : Nat) : Prop where
  up : p.aborted = false
  pos : 0 < p.size
  stocked : ∃ tasks, Stocked p cap tasks ∧ ∀ i < p.size, (tasks i).length = cap

variable {p q r : Rings ι α} {cap : Nat} {es fs : List (Event ι)}

theorem Aside.refl (p : Rings ι α) : Aside p p [] := ⟨p.slots, p.handles, rfl⟩

theorem Aside.trans (h : Aside p q es) (h' : Aside q r fs) : Aside p r (es ++ fs) := by
  obtain ⟨slots, handles, rfl⟩ := h
  obtain ⟨slots', handles', rfl⟩ := h'
  exact ⟨slots', handles', by simp⟩

theorem Aside.note (h : Aside p q es) (e : Event ι) : Aside p (q.note e) (es ++ [e]) := by
  obtain ⟨slots, handles, rfl⟩ := h
  exact ⟨slots, handles, by simp [Pool.note]⟩

theorem Aside.setSlot (h : Aside p q es) (slot : Nat) (z : ResultSlot α) :
    Aside p (q.setSlot slot z) es := by
  obtain ⟨slots, handles, rfl⟩ := h
  exact ⟨slots.set slot z, handles, rfl⟩

theorem Full.aside (h : Full p cap) (ha : Aside p q es) : Full q cap := by
  obtain ⟨slots, handles, rfl⟩ := ha
  obtain ⟨tasks, hs, hfull⟩ := h.stocked
  exact ⟨h.up, h.pos, tasks, hs.of_workers rfl, hfull⟩

section Run

variable [BEq ι] (below : List (RingActivity ι α))

theorem embeds_push (handle? : Option (ι × Nat)) (place : Place) :
    Embeds (Push.moves (Q := Ring (Item ι α))) calls.moves
      (fun a => Point.land place below (a.embed id (fun s => .stay (.submit (.push s handle?)))
        fun p r =>
          match r with
          | .ok _ => .go p (.stay (.submit (.wake .one handle?)))
          | .error t => .go p (.call (.submit (.inline handle?)) (.run t))))
      fun p => p.aborted = false := by
  refine embeds_busy (fun _ _ _ => Push.frame fun _ _ => trivial) fun p s => ?_
  rw [Activity.moves, Submit.moves, map_embed_stay]
  refine List.map_congr_left fun a _ => ?_
  rcases a with _ | ⟨_, _ | _⟩ <;> rfl

theorem embeds_pushChunk (c : RangeCall ι) (start : UInt64) (pushed : Nat) (place : Place) :
    Embeds (Push.moves (Q := Ring (Item ι α))) calls.moves
      (fun a => Point.land place below (a.embed id
        (fun s => .stay (.submit (.pushChunk c start pushed s))) fun p r =>
          match r with
          | .ok _ => .go p (.stay (.submit (.cut c (c.stop start) (pushed + 1))))
          | .error _ => .go p (.stay (.submit (.wakeAll c start (.upTo pushed))))))
      fun p => p.aborted = false := by
  refine embeds_busy (fun _ _ _ => Push.frame fun _ _ => trivial) fun p s => ?_
  rw [Activity.moves, Submit.moves, map_embed_stay]
  refine List.map_congr_left fun a _ => ?_
  rcases a with _ | ⟨_, _ | _⟩ <;> rfl

theorem embeds_wakeAll (c : RangeCall ι) (start : UInt64) (place : Place) :
    Embeds (Wake.moves (Q := Ring (Item ι α)) (α := α)) calls.moves
      (fun a => Point.land place below (a.embed id
        (fun w => .stay (.submit (.wakeAll c start w))) fun p _ =>
          if start < c.hi then .go p (.call (.submit (.inline none)) (.run (c.chunk start c.hi)))
          else .go p (.stay (.submit (.leave .returned)))))
      fun p => p.aborted = false := by
  refine embeds_busy (fun _ _ _ => Wake.frame) fun p w => ?_
  rw [Activity.moves, Submit.moves, map_embed_stay]
  refine List.map_congr_left fun a _ => ?_
  rcases a with _ | _
  · rfl
  · simp only [Move.embed]
    split <;> rfl

theorem Full.passes_push (h : Full p cap) (t : Item ι α) (handle? : Option (ι × Nat))
    (place : Place) :
    Passes calls.moves (.go p (.busy place (.submit (.push (.aim t) handle?)) below))
      (.go p (.busy place (.run t .begin) (.submit (.inline handle?) :: below))) := by
  obtain ⟨tasks, hs, hfull⟩ := h.stocked
  exact (Push.passes_refused hs h.pos hfull t).map (embeds_push below handle? place) h.up

theorem passes_begin (h : p.aborted = false) (t : Item ι α) :
    Passes calls.moves (.go p (.busy .caller (.run t .begin) below))
      (.go (p.note (.began t.closure.label .caller false))
        (.busy .caller (.run t (Run.afterBegin .caller t)) below)) := by
  refine passes_stay h ?_
  have hfree : t.closure.holds? .caller = none := by
    rcases t with ⟨_, ⟨_, _ | _ | _ | _, _, _⟩ | ⟨_, _, _, _⟩⟩ <;> rfl
  rw [Activity.moves, Run.moves, hfree]
  rfl

theorem passes_end (place : Place) (h : p.aborted = false) (t : Item ι α) (o : Outcome) :
    Passes calls.moves (.go p (.busy place (.run t (.leave o)) below))
      (Point.land place below (.done (p.note (.ended t.closure.label place)) o)) :=
  passes_busy h (congrArg (List.map (TurnMove.map (Activity.run t))) (Run.moves_leave place t p o))

theorem passes_resume (ha : p.aborted = false) (handle? : Option (ι × Nat)) (o : Outcome) : ∃ q,
    Passes calls.moves
      (.go p (.busy .caller (.submit ((Submit.inline handle?).resume o)) below))
      (Point.land .caller below (.done q o)) ∧ Aside p q [] := by
  cases o with
  | panicked payload => exact ⟨p, passes_busy ha rfl, .refl p⟩
  | returned =>
    cases handle? with
    | none => exact ⟨p, passes_busy ha rfl, .refl p⟩
    | some handle =>
      let kept : Rings ι α :=
        { p with handles := handle :: p.handles.filter fun h => !h.1 == handle.1 }
      have hkeep : Passes calls.moves (.go p (.busy .caller (.submit (.keep handle)) below))
          (.go kept (.busy .caller (.submit (.leave .returned)) below)) := passes_stay ha rfl
      exact ⟨kept, hkeep.trans (passes_busy ha rfl), p.slots, kept.handles, rfl⟩

theorem passes_in (h : Full p cap) (t : Item ι α) (handle? : Option (ι × Nat)) :
    Passes calls.moves (.go p (.busy .caller (.submit (.push (.aim t) handle?)) below))
      (.go (p.note (.began t.closure.label .caller false)) (.busy .caller
        (.run t (Run.afterBegin .caller t)) (.submit (.inline handle?) :: below))) :=
  (h.passes_push below t handle? .caller).trans (passes_begin _ h.up t)

theorem passes_out (h : Full p cap) (t : Item ι α) (handle? : Option (ι × Nat)) (o : Outcome) :
    ∃ q,
    Passes calls.moves
      (.go p (.busy .caller (.run t (.leave o)) (.submit (.inline handle?) :: below)))
      (Point.land .caller below (.done q o)) ∧
      Aside p q [.ended t.closure.label .caller] := by
  have hended := (Aside.refl p).note (.ended t.closure.label .caller)
  obtain ⟨q, hq, haside⟩ := passes_resume below (h.aside hended).up handle? o
  exact ⟨q, (passes_end _ .caller h.up t o).trans hq, hended.trans haside⟩

theorem passes_leaf (h : Full p cap) {t : Item ι α} (handle? : Option (ι × Nat))
    (ht : Run.afterBegin .caller t = .leave (Run.outcome .caller t)) : ∃ q,
    Passes calls.moves (.go p (.busy .caller (.run t .begin) (.submit (.inline handle?) :: below)))
      (Point.land .caller below (.done q (Run.outcome .caller t))) ∧
      Aside p q [.began t.closure.label .caller false, .ended t.closure.label .caller] := by
  have hbegun := (Aside.refl p).note (.began t.closure.label .caller false)
  have hbegin := passes_begin (.submit (.inline handle?) :: below) h.up t
  rw [ht] at hbegin
  obtain ⟨q, hq, haside⟩ := passes_out below (h.aside hbegun) t handle?
    (Run.outcome .caller t)
  exact ⟨q, hbegin.trans hq, hbegun.trans haside⟩

theorem passes_range (h : Full p cap) (id : ι) (lo hi : UInt64) (panic : Option RangePanic) : ∃ q,
    Passes calls.moves (.go p (.busy .caller (.submit (.begin (.range id lo hi panic))) below))
      (Point.land .caller below (.done q (Order.range id lo hi panic : Order ι α).inlined.2)) ∧
      Aside p q (Order.range id lo hi panic : Order ι α).inlined.1 := by
  rw [Order.inlined]
  by_cases hlo : lo < hi
  · let c : RangeCall ι := ⟨id, hi, Range.granularity p.size p.minGranularity lo hi, panic⟩
    let first : Item ι α := c.chunk lo (c.stop lo)
    have hbegin : (Activity.submit (.begin (.range id lo hi panic))).moves .caller p =
        [.go p (.stay (.submit (.cut c lo 0)))] := by
      simp [Activity.moves, Submit.moves, Submit.accept, hlo, c, TurnMove.map, TurnMove.stay,
        Move.embed, Turn.map]
    have hcut : (Activity.submit (.cut c lo 0)).moves .caller p =
        [.go p (.stay (.submit (.pushChunk c lo 0 (.aim first))))] := by
      simp [Activity.moves, Submit.moves, hlo, c, first, TurnMove.map, TurnMove.stay, Move.embed,
        Turn.map]
    obtain ⟨tasks, hs, hfull⟩ := h.stocked
    have hpush := (Push.passes_refused hs h.pos hfull first).map
      (embeds_pushChunk below c lo 0 .caller) h.up
    obtain ⟨g, n, hwake, hsame⟩ := passes_wake p 0
    obtain ⟨rfl, rfl⟩ := hsame (Nat.min_zero _)
    have hcall := hwake.map (embeds_wakeAll below c lo .caller) h.up
    simp only [Move.embed, if_pos (show lo < c.hi from hlo)] at hcall
    obtain ⟨q, hq, haside⟩ := passes_leaf below h (t := c.chunk lo hi) none rfl
    rw [if_pos hlo]
    exact ⟨q, (passes_stay h.up hbegin).trans ((passes_stay h.up hcut).trans
      (hpush.trans (hcall.trans hq))), haside⟩
  · have hbegin : (Activity.submit (.begin (.range id lo hi panic))).moves .caller p =
        [.go p (.stay (.submit (.leave .returned)))] := by
      simp [Activity.moves, Submit.moves, Submit.accept, hlo, TurnMove.map, TurnMove.stay,
        Move.embed, Turn.map]
    rw [if_neg hlo]
    exact ⟨p, (passes_stay h.up hbegin).trans (passes_busy h.up rfl), .refl p⟩

mutual

theorem passes_inlined (o : Order ι α) {p : Rings ι α} (h : Full p cap)
    (below : List (RingActivity ι α)) : ∃ q,
    Passes calls.moves (.go p (.busy .caller (.submit (.begin o)) below))
      (Point.land .caller below (.done q o.inlined.2)) ∧ Aside p q o.inlined.1 := by
  have hbegun {p : Rings ι α} (l : Label ι) := (Aside.refl p).note (.began l .caller false)
  match o with
  | .task id layout .nothing panic =>
    obtain ⟨q, hq, haside⟩ := passes_leaf below h
      (t := ⟨layout, .task id .nothing panic none⟩) none rfl
    exact ⟨q, (passes_stay h.up rfl).trans ((h.passes_push _ _ _ _).trans hq), haside⟩
  | .task id layout .hold panic =>
    obtain ⟨q, hq, haside⟩ := passes_leaf below h
      (t := ⟨layout, .task id .hold panic none⟩) none rfl
    exact ⟨q, (passes_stay h.up rfl).trans ((h.passes_push _ _ _ _).trans hq), haside⟩
  | .task id layout (.answer v) panic =>
    let slot := p.slots.length
    let t : Item ι α := ⟨layout, .task id (.answer v) panic (some slot)⟩
    let grown : Rings ι α := { p with slots := p.slots ++ [{}] }
    have hgrown : Aside p grown [] := ⟨grown.slots, p.handles, rfl⟩
    have hbegan := hgrown.trans (hbegun (p := grown) (.task id))
    have hfull := h.aside hbegan
    have hslot : (grown.note (.began (.task id) .caller false)).slots[slot]? =
        some ({} : ResultSlot α) := by simp [Pool.note, grown, slot]
    obtain ⟨z, hz, -⟩ := passes_answer .caller layout id v panic
      (.submit (.inline (some (id, slot))) :: below) hfull.up hslot (by intro a ha; cases ha)
    have hdelivered := hbegan.setSlot slot z
    obtain ⟨q, hq, haside⟩ := passes_out below (h.aside hdelivered) t
      (some (id, slot)) (Run.outcome .caller t)
    have hin := passes_in below (h.aside hgrown) t (some (id, slot))
    exact ⟨q, (passes_stay h.up rfl).trans (hin.trans (hz.trans hq)), hdelivered.trans haside⟩
  | .task id layout (.spawn orders) panic =>
    let t : Item ι α := ⟨layout, .task id (.spawn orders) panic none⟩
    have hfull := h.aside (hbegun (.task id))
    obtain ⟨q, hq, haside⟩ := passes_children orders hfull t (.submit (.inline none) :: below)
    obtain ⟨r, hr, haside'⟩ := passes_out below (hfull.aside haside) t none
      ((Order.allInlined orders).2.andThen (Run.outcome .caller t))
    refine ⟨r, (passes_stay h.up rfl).trans ((passes_in _ h t none).trans (hq.trans hr)), ?_⟩
    exact (hbegun (.task id)).trans (haside.trans haside')
  | .range id lo hi panic => exact passes_range below h id lo hi panic

theorem passes_children (orders : List (Order ι α)) {p : Rings ι α} (h : Full p cap) (t : Item ι α)
    (below : List (RingActivity ι α)) : ∃ q,
    Passes calls.moves (.go p (.busy .caller (.run t (.children orders)) below))
      (.go q (.busy .caller
        (.run t (.leave ((Order.allInlined orders).2.andThen (Run.outcome .caller t)))) below)) ∧
      Aside p q (Order.allInlined orders).1 := by
  cases orders with
  | nil => exact ⟨p, passes_stay h.up rfl, .refl p⟩
  | cons o orders =>
    have hcall : Passes calls.moves (.go p (.busy .caller (.run t (.children (o :: orders))) below))
        (.go p (.busy .caller (.submit (.begin o)) (.run t (.submitting orders) :: below))) :=
      passes_call (c := .submit o) h.up rfl
    obtain ⟨q, hq, haside⟩ := passes_inlined o h (.run t (.submitting orders) :: below)
    rw [Order.allInlined]
    cases ho : o.inlined.2 with
    | panicked payload =>
      rw [ho] at hq
      exact ⟨q, hcall.trans hq, haside⟩
    | returned =>
      rw [ho] at hq
      obtain ⟨r, hr, haside'⟩ := passes_children orders (h.aside haside) t below
      exact ⟨r, hcall.trans (hq.trans hr), haside.trans haside'⟩

end

end Run

end WorkStealing.Pool
