import WorkStealing.Proofs.Pool.Counters
import WorkStealing.Proofs.Pool.Placing

namespace WorkStealing.Pool

variable {ι α P R X Y : Type}

structure Scene (ι α : Type) where
  tasks : Nat → List (Item ι α)
  counters : Stats
  history : List (Event ι)
  gate : Gate

namespace Scene

def count (d : Scene ι α) (s : Stats) : Scene ι α := { d with counters := d.counters + s }

def note (d : Scene ι α) (e : Event ι) : Scene ι α := { d with history := e :: d.history }

def setGate (d : Scene ι α) (g : Gate) : Scene ι α := { d with gate := g }

def setTasks (d : Scene ι α) (i : Nat) (ts : List (Item ι α)) : Scene ι α :=
  { d with tasks := Function.update d.tasks i ts }

end Scene

/-- The pool `q` is `p` but for what worker `w` has done, and that is as told. -/
structure Shows (p : Rings ι α) (w cap : Nat) (q : Rings ι α) (d : Scene ι α) : Prop where
  same : q = { p with
    workers := q.workers, slots := q.slots, history := d.history, gate := d.gate }
  size : q.size = p.size
  worker : ∀ (i : Nat) (x : Worker (Ring (Item ι α))), p.workers[i]? = some x →
    ∃ (r : Ring (Item ι α)) (f : Nat), r.Holds cap f (d.tasks i) ∧ q.workers[i]? =
      some { x with queue := r, counters := if i = w then d.counters else x.counters }
  slots : q.slots.length = p.slots.length ∧ ∀ z ∈ q.slots, z.latch.Sturdy

variable {p q : Rings ι α} {w cap : Nat} {d d' d'' : Scene ι α}

namespace Shows

theorem stocked (h : Shows p w cap q d) : Stocked q cap d.tasks := by
  intro i y hy
  have hi : i < p.size := h.size ▸ (List.getElem?_eq_some_iff.1 hy).1
  obtain ⟨r, f, hr, hq⟩ := h.worker i p.workers[i] (List.getElem?_eq_getElem hi)
  rw [hy] at hq
  obtain rfl := Option.some.inj hq
  exact ⟨f, hr⟩

theorem start (hs : Stocked p cap d.tasks) (hz : ∀ z ∈ p.slots, z.latch.Sturdy)
    (hw : ∀ x, p.workers[w]? = some x → x.counters = d.counters) (hh : p.history = d.history)
    (hg : p.gate = d.gate) : Shows p w cap p d := by
  refine ⟨by rw [← hh, ← hg], rfl, fun i x hx => ?_, rfl, hz⟩
  obtain ⟨f, hf⟩ := hs i x hx
  refine ⟨_, f, hf, ?_⟩
  rw [hx]
  split
  · rename_i hi
    subst hi
    rw [← hw x hx]
  · rfl

theorem note (h : Shows p w cap q d) (e : Event ι) : Shows p w cap (q.note e) (d.note e) := by
  have hsame := h.same
  refine ⟨?_, h.size, h.worker, h.slots⟩
  rw [hsame]
  rfl

theorem setGate (h : Shows p w cap q d) (g : Gate) :
    Shows p w cap (Gated.setGate q g) (d.setGate g) := by
  have hsame := h.same
  refine ⟨?_, h.size, h.worker, h.slots⟩
  rw [hsame]
  rfl

theorem gate (h : Shows p w cap q d) : q.gate = d.gate := by rw [h.same]

theorem aborted (h : Shows p w cap q d) : q.aborted = p.aborted := by rw [h.same]

theorem panicPolicy (h : Shows p w cap q d) : q.panicPolicy = p.panicPolicy := by rw [h.same]

theorem spinCount (h : Shows p w cap q d) : q.spinCount = p.spinCount := by rw [h.same]

theorem modify (h : Shows p w cap q d) {i : Nat}
    {f : Worker (Ring (Item ι α)) → Worker (Ring (Item ι α))} {d' : Scene ι α}
    (hhistory : d'.history = d.history) (hgate : d'.gate = d.gate)
    (hother : ∀ j ≠ i, d'.tasks j = d.tasks j)
    (hcounters : i ≠ w → d'.counters = d.counters)
    (hself : ∀ (x : Worker (Ring (Item ι α))) (r : Ring (Item ι α)) (c : Nat),
      r.Holds cap c (d.tasks i) → ∃ (r' : Ring (Item ι α)) (c' : Nat),
        r'.Holds cap c' (d'.tasks i) ∧
        f { x with queue := r, counters := if i = w then d.counters else x.counters } =
        { x with queue := r', counters := if i = w then d'.counters else x.counters }) :
    Shows p w cap (q.modify i f) d' := by
  have hsame := h.same
  refine ⟨?_, ?_, fun j x hx => ?_, h.slots⟩
  · rw [hsame, hhistory, hgate]
    rfl
  · rw [← h.size]
    simp [Pool.modify, Pool.size]
  · obtain ⟨r, c, hr, hq⟩ := h.worker j x hx
    rw [Pool.modify, List.getElem?_modify, hq, Option.map_eq_map, Option.map_some]
    by_cases hij : i = j
    · subst hij
      obtain ⟨r', c', hr', hf⟩ := hself x r c hr
      refine ⟨r', c', hr', ?_⟩
      rw [if_pos rfl]
      exact congrArg some hf
    · refine ⟨r, c, hother j (Ne.symm hij) ▸ hr, ?_⟩
      rw [if_neg hij]
      by_cases hj : j = w
      · rw [if_pos hj, if_pos hj, hcounters (fun hi => hij (hi.trans hj.symm))]
      · rw [if_neg hj, if_neg hj]

theorem bump (h : Shows p w cap q d) {f : Stats → Stats} {s : Stats} (hf : ∀ c, f c = c + s) :
    Shows p w cap (q.bump w f) (d.count s) := by
  refine h.modify rfl rfl (fun _ _ => rfl) (fun hw => absurd rfl hw) fun x r c hr => ?_
  refine ⟨r, c, hr, ?_⟩
  simp only [if_true, hf]
  rfl

theorem setQueue (h : Shows p w cap q d) {i f : Nat} {r : Ring (Item ι α)} {ts : List (Item ι α)}
    (hr : r.Holds cap f ts) : Shows p w cap (q.setQueue i r) (d.setTasks i ts) := by
  refine h.modify rfl rfl (fun j hj => ?_) (fun _ => rfl) fun x r' c _ => ⟨r, f, ?_, rfl⟩
  · simp [Scene.setTasks, hj]
  · simpa [Scene.setTasks] using hr

theorem setSlot (h : Shows p w cap q d) (slot : Nat) {z : ResultSlot α} (hz : z.latch.Sturdy) :
    Shows p w cap (q.setSlot slot z) d := by
  have hsame := h.same
  refine ⟨?_, h.size, h.worker, ?_, fun y hy => ?_⟩
  · rw [hsame]
    rfl
  · rw [← h.slots.1]
    exact List.length_set
  · rcases List.mem_or_eq_of_mem_set hy with hy | rfl
    · exact h.slots.2 y hy
    · exact hz

theorem phase? (h : Shows p w cap q d) : q.phase? w = p.phase? w := by
  rw [Pool.phase?, Pool.phase?]
  cases hw : p.workers[w]? with
  | none =>
    have hge := List.getElem?_eq_none_iff.1 hw
    have hsize := h.size
    rw [Pool.size, Pool.size] at hsize
    rw [List.getElem?_eq_none (by omega)]
  | some x =>
    obtain ⟨r, f, -, hq⟩ := h.worker w x hw
    rw [hq]
    rfl

end Shows

/-- From any pool that looks like `d` a call at `x` passes `e` with one that looks like `d'`. -/
def Leads (p : Rings ι α) (w cap : Nat) (f : Rings ι α → X → List (Move (Rings ι α) X Y))
    (d : Scene ι α) (x : X) (d' : Scene ι α) (e : Rings ι α → Move (Rings ι α) X Y) : Prop :=
  ∀ q, Shows p w cap q d → ∃ q', Passes f (.go q x) (e q') ∧ Shows p w cap q' d'

section Leads

variable {f : Rings ι α → X → List (Move (Rings ι α) X Y)} {x y : X}
  {e : Rings ι α → Move (Rings ι α) X Y}

theorem Leads.refl (d : Scene ι α) (x : X) : Leads p w cap f d x d fun q => .go q x :=
  fun q h => ⟨q, .refl _, h⟩

theorem Leads.trans (h : Leads p w cap f d x d' fun q => .go q y)
    (h' : Leads p w cap f d' y d'' e) : Leads p w cap f d x d'' e := by
  intro q hq
  obtain ⟨r, hr, hd⟩ := h q hq
  obtain ⟨s, hs, hd'⟩ := h' r hd
  exact ⟨s, hr.trans hs, hd'⟩

theorem Leads.weave {g : Rings ι α → Rings ι α} (h : Leads p w cap f d x d' fun q => e (g q))
    (hg : ∀ q, Shows p w cap q d' → Shows p w cap (g q) d'') : Leads p w cap f d x d'' e := by
  intro q hq
  obtain ⟨r, hr, hd⟩ := h q hq
  exact ⟨g r, hr, hg r hd⟩

theorem Leads.congr {e' : Rings ι α → Move (Rings ι α) X Y} (h : Leads p w cap f d x d' e)
    (he : ∀ q, Shows p w cap q d' → e q = e' q) : Leads p w cap f d x d' e' := by
  intro q hq
  obtain ⟨r, hr, hd⟩ := h q hq
  exact ⟨r, he r hd ▸ hr, hd⟩

theorem leads_of_moves {g : Rings ι α → Rings ι α} (hg : ∀ q, Shows p w cap q d →
    f q x = [e (g q)] ∧ Shows p w cap (g q) d') : Leads p w cap f d x d' e := by
  intro q hq
  obtain ⟨hmoves, hd⟩ := hg q hq
  exact ⟨g q, passes_of_moves hmoves, hd⟩

theorem Leads.map {Z A : Type} {h : Rings ι α → Z → List (Move (Rings ι α) Z A)}
    {E : Move (Rings ι α) X Y → Move (Rings ι α) Z A} {z : Z} {I : Rings ι α → Prop}
    (hl : Leads p w cap f d x d' e) (hE : Embeds f h E I)
    (hI : ∀ q, Shows p w cap q d → I q) (hz : ∀ q, E (.go q x) = .go q z) :
    Leads p w cap h d z d' fun q => E (e q) := by
  intro q hq
  obtain ⟨r, hr, hd⟩ := hl q hq
  have hmap := hr.map hE (hI q hq)
  rw [hz] at hmap
  exact ⟨r, hmap, hd⟩

section Pop

variable (cap) {i : Nat} (stay : Ring.Pop (Item ι α) → X)
  (finish : Rings ι α → Option (Item ι α) → Move (Rings ι α) X Y)

theorem leads_miss (hi : i < p.size) (hempty : d.tasks i = [])
    (hg : ∀ q c, q.size = p.size → f q (stay c) = tryPop q i c stay finish) :
    Leads p w cap f d (stay .look) d fun q => finish q none := by
  intro q hq
  obtain ⟨x, c, hx, hc⟩ := hq.stocked.queue (hq.size.symm ▸ hi)
  rw [hempty] at hc
  have hpass := passes_tryPop (fun r e => hg _ e ((size_setQueue _ _ r).trans hq.size)) hx
    hc.passes_pop_empty
  rw [setQueue_self hx] at hpass
  exact ⟨q, hpass, hq⟩

theorem leads_hit {t : Item ι α} {ts : List (Item ι α)} (hi : i < p.size)
    (htask : d.tasks i = t :: ts)
    (hg : ∀ q c, q.size = p.size → f q (stay c) = tryPop q i c stay finish) :
    Leads p w cap f d (stay .look) (d.setTasks i ts) fun q => finish q (some t) := by
  intro q hq
  obtain ⟨x, c, hx, hc⟩ := hq.stocked.queue (hq.size.symm ▸ hi)
  rw [htask] at hc
  have hpass := passes_tryPop (fun r e => hg _ e ((size_setQueue _ _ r).trans hq.size)) hx
    hc.passes_pop
  exact ⟨_, hpass, hq.setQueue hc.afterPop⟩

end Pop

section Own

variable (cap) (stay : Ring.Pop (Item ι α) → X) (found : Rings ι α → Item ι α → Move (Rings ι α) X Y)
  (nothing : Rings ι α → Move (Rings ι α) X Y)

theorem leads_own_miss (hw : w < p.size) (hempty : d.tasks w = [])
    (hg : ∀ q c, f q (stay c) = tryOwn q w c stay found nothing) :
    Leads p w cap f d (stay .look) d nothing :=
  leads_miss cap stay _ hw hempty fun q c _ => hg q c

theorem leads_own_hit {t : Item ι α} {ts : List (Item ι α)} (hw : w < p.size)
    (htask : d.tasks w = t :: ts) (hg : ∀ q c, f q (stay c) = tryOwn q w c stay found nothing) :
    Leads p w cap f d (stay .look) ((d.setTasks w ts).note (.taken t.closure.label w w))
      fun q => found q t := by
  have hhit := leads_hit cap (w := w) stay _ hw htask fun q c _ => hg q c
  exact hhit.weave fun q h => h.note _

end Own

end Leads

end WorkStealing.Pool
