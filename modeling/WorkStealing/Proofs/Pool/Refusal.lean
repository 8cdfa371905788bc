import WorkStealing.Proofs.Pool.History

namespace WorkStealing

variable {ι α : Type}

def Ring.Push.Brings {β : Type} (t : β) : Ring.Push β → Prop
  | .look v | .inspect v _ | .claim v _ | .write v _ => v = t
  | .publish _ => True

theorem Ring.Push.Brings.go {β : Type} {t : β} {e e' : Ring.Push β} {r r' : Ring β}
    (h : e.Brings t) (ha : .go r' e' ∈ e.moves r) : e'.Brings t := by
  cases e with
  | look v =>
    obtain ⟨-, rfl⟩ := by simpa [Push.moves] using ha
    exact h
  | inspect v pos =>
    simp only [Push.moves] at ha
    split at ha
    · simp at ha
    · split at ha <;> simp at ha
      · obtain ⟨-, rfl⟩ := ha
        exact h
      · obtain ⟨-, rfl⟩ := ha
        exact h
  | claim v pos =>
    simp only [Push.moves] at ha
    split at ha
    · rcases List.mem_cons.1 ha with ha | ha
      · cases ha
        exact h
      · cases List.mem_singleton.1 ha
        exact h
    · cases List.mem_singleton.1 ha
      exact h
  | write v pos =>
    cases List.mem_singleton.1 ha
    trivial
  | publish pos => simp [Push.moves] at ha

theorem Ring.Push.Brings.error {β : Type} {t u : β} {e : Ring.Push β} {r r' : Ring β}
    (h : e.Brings t) (ha : .done r' (.error u) ∈ e.moves r) : u = t := by
  cases e with
  | inspect v pos =>
    simp only [Push.moves] at ha
    split at ha
    · simp at ha
    · split at ha <;> simp at ha
      exact ha.2.trans h
  | claim v pos =>
    simp only [Push.moves] at ha
    split at ha <;> simp at ha
  | _ => simp [Push.moves] at ha

/-- What a ring hands back in the next step of a push, if it refuses it. -/
def Ring.Push.refused? {β : Type} (r : Ring β) (e : Ring.Push β) : Option β :=
  (e.moves r).findSome? fun a =>
    match a with
    | .done _ (.error t) => some t
    | _ => none

theorem Ring.Push.moves_of_error {β : Type} {u : β} {e : Ring.Push β} {r r' : Ring β}
    (ha : .done r' (.error u) ∈ e.moves r) : e.moves r = [.done r' (.error u)] := by
  cases e with
  | inspect v pos =>
    simp only [Push.moves] at ha ⊢
    split at ha
    · cases ha
    · split at ha <;> cases List.mem_singleton.1 ha
      rfl
  | claim v pos =>
    simp only [Push.moves] at ha
    split at ha <;> simp at ha
  | _ => simp [Push.moves] at ha

theorem Ring.Push.refused?_of_error {β : Type} {u : β} {e : Ring.Push β} {r r' : Ring β}
    (ha : .done r' (.error u) ∈ e.moves r) : e.refused? r = some u := by
  rw [refused?, moves_of_error ha]
  rfl

theorem Ring.Push.refused?_of_go {β : Type} {e e' : Ring.Push β} {r r' : Ring β}
    (ha : .go r' e' ∈ e.moves r) : e.refused? r = none := by
  refine List.findSome?_eq_none_iff.2 fun b hb => ?_
  split
  · rename_i q u
    rw [moves_of_error hb] at ha
    cases List.mem_singleton.1 ha
  · rfl

namespace Pool

/-- The queues tried with a task, `k` of them from `start` on, the latest first. -/
def tried {β : Type} (n start k : Nat) (t : β) : List (Nat × β) :=
  (List.range k).reverse.map fun o => ((start + o) % n, t)

theorem tried_succ {β : Type} (n start k : Nat) (t : β) :
    tried n start (k + 1) t = ((start + k) % n, t) :: tried n start k t := by
  simp [tried, List.range_succ]

theorem tried_next {β : Type} {n start k : Nat} {t : β} {rs : List (Nat × β)}
    (h : tried n start k t <+: rs) : tried n start (k + 1) t <+: ((start + k) % n, t) :: rs := by
  rw [tried_succ]
  exact List.cons_prefix_cons.2 ⟨rfl, h⟩

theorem mem_tried {β : Type} {n q : Nat} (start : Nat) (t : β) (hq : q < n) :
    (q, t) ∈ tried n start n t := by
  obtain ⟨y, hy, he⟩ := exists_add_mod start hq
  exact List.mem_map.2 ⟨y, by simpa using hy, by rw [he]⟩

def Push.refusal? (p : Rings ι α) : Push (Ring.Push (Item ι α)) ι α → Option (Nat × Item ι α)
  | .offer _ start o e =>
    let q := (start + o) % p.size
    ((core p).queues[q]?.bind e.refused?).map (q, ·)
  | _ => none

def refusal? (p : Rings ι α) : RingPoint ι α → Option (Nat × Item ι α)
  | .busy _ (.submit (.push s _)) _ | .busy _ (.submit (.pushChunk _ _ _ s)) _ => s.refusal? p
  | _ => none

def refusals (i : Nat) (log : Log ι α) : List (Nat × Item ι α) :=
  log.filterMap fun e => if e.thread = i then refusal? e.before e.point else none

section Cons

variable {i : Nat} {e : Crew.Entry (Rings ι α) (Call ι α) (RingPoint ι α) (Reply α)} {log : Log ι α}

theorem refusals_cons_ne (h : e.thread ≠ i) : refusals i (e :: log) = refusals i log := by
  simp [refusals, h]

theorem refusals_cons_self (h : e.thread = i) : refusals i (e :: log) =
    (refusal? e.before e.point).toList ++ refusals i log := by
  cases hr : refusal? e.before e.point <;> simp [refusals, h, hr]

end Cons

/-- `u` is the chunk of a range that comes next when `t` is all that is left of it. -/
def Heads (u t : Item ι α) : Prop :=
  ∃ (r : RangeCall ι) (start : UInt64), u = r.chunk start (r.stop start) ∧ t = r.chunk start r.hi

def Push.Turned (n : Nat) (rs : List (Nat × Item ι α)) (t : Item ι α) :
    Push (Ring.Push (Item ι α)) ι α → Prop
  | .aim u => u = t
  | .offer u start o e => u = t ∧ o < n ∧ e.Brings t ∧ tried n start o t <+: rs
  | .record _ => True

def Turned (n : Nat) (rs : List (Nat × Item ι α)) : RingPoint ι α → Prop
  | .busy _ (.submit (.push s _)) _ => ∃ t, s.Turned n rs t
  | .busy _ (.submit (.pushChunk r start _ s)) _ =>
    s.Turned n rs (r.chunk start (r.stop start))
  | .busy _ (.submit (.wakeAll r start _)) _ =>
    start < r.hi → ∃ q, tried n q n (r.chunk start (r.stop start)) <+: rs
  | .busy _ (.run t .begin) (.submit (.inline _) :: _) =>
    ∃ u q, (u = t ∨ Heads u t) ∧ tried n q n u <+: rs
  | _ => True

section Turned

variable {p : Rings ι α} {n : Nat} {rs : List (Nat × Item ι α)} {t : Item ι α} {c : Call ι α}
  {place : Place} {below : List (RingActivity ι α)}

theorem Push.turned {s : Push (Ring.Push (Item ι α)) ι α}
    {a : Move (Rings ι α) (Push (Ring.Push (Item ι α)) ι α) (Except (Item ι α) Nat)}
    (hn : p.size = n) (h0 : 0 < n) (ht : s.Turned n rs t) (ha : a ∈ s.moves p) :
    a.read (Push.Turned n ((s.refusal? p).toList ++ rs) t) fun x =>
      ∀ u, x = .error u → u = t ∧ ∃ q, tried n q n t <+: (s.refusal? p).toList ++ rs := by
  subst hn
  cases Push.step ha with
  | aim => exact ⟨ht, h0, ht, List.nil_prefix⟩
  | offer hr h =>
    obtain ⟨rfl, ho, he, htried⟩ := ht
    rw [Move.read, Push.refusal?, hr, Option.bind_some, Ring.Push.refused?_of_go h]
    exact ⟨rfl, ho, he.go h, htried⟩
  | place _ _ => trivial
  | next hr h hlt =>
    obtain ⟨rfl, ho, he, htried⟩ := ht
    obtain rfl := he.error h
    rw [Move.read, Push.refusal?, hr, Option.bind_some, Ring.Push.refused?_of_error h]
    exact ⟨rfl, hlt, rfl, tried_next htried⟩
  | @refuse u v start o r r' e hr h hge =>
    obtain ⟨rfl, ho, he, htried⟩ := ht
    obtain rfl := he.error h
    rw [Move.read, Push.refusal?, hr, Option.bind_some, Ring.Push.refused?_of_error h]
    rintro w ⟨⟩
    have hall := tried_next htried
    rw [show o + 1 = p.size by omega] at hall
    exact ⟨rfl, start, hall⟩
  | record => rintro w ⟨⟩

theorem Stacked.turned_resume {x : RingActivity ι α} {b : Bool}
    (h : Stacked n c place b (x :: below)) (policy : PanicPolicy) (o : Outcome) :
    Turned n rs (.busy place (x.resume policy o) below) := by
  cases h with
  | worker hi => cases o <;> trivial
  | run h => cases o <;> trivial
  | inline h =>
    rename_i handle?
    cases o <;> cases handle? <;> trivial

variable [BEq ι]

theorem Submit.turned {s : Submit (Ring.Push (Item ι α)) ι α}
    {a : TurnMove (Ring (Item ι α)) ι α (Submit (Ring.Push (Item ι α)) ι α)} (hn : p.size = n)
    (h0 : 0 < n) (hs : Stacked n c place false below)
    (ht : Turned n rs (.busy place (.submit s) below)) (ha : a ∈ s.moves p) :
    let a' : RingMove ι α := Point.land place below (a.map .submit)
    a'.read (Turned n ((refusal? p (.busy place (.submit s) below : RingPoint ι α)).toList ++ rs))
      fun _ => True := by
  cases Submit.step ha with
  | answer | task _ => exact ⟨_, rfl⟩
  | @push q s s' handle? h =>
    obtain ⟨t, ht⟩ := ht
    have hr := Push.turned hn h0 ht h
    cases s <;> cases s' <;> exact ⟨t, hr⟩
  | @refused q s handle? u h =>
    obtain ⟨t, ht⟩ := ht
    obtain ⟨rfl, q, hq⟩ := Push.turned hn h0 ht h u rfl
    cases s <;> exact ⟨u, q, .inl rfl, hq⟩
  | @woken q w handle? h => cases handle? <;> trivial
  | cut h => rfl
  | whole hge => exact fun hlt => absurd hlt hge
  | @pushChunk q r start pushed s s' h =>
    have hr := Push.turned hn h0 ht h
    cases s <;> cases s' <;> exact hr
  | @chunkRefused q r start pushed s u h =>
    obtain ⟨rfl, q, hq⟩ := Push.turned hn h0 ht h u rfl
    cases s <;> exact fun _ => ⟨q, hq⟩
  | wakeAll h => exact ht
  | rest h hlt =>
    obtain ⟨q, hq⟩ := ht hlt
    exact ⟨_, q, .inr ⟨_, _, rfl, rfl⟩, hq⟩
  | @leave o =>
    cases below with
    | nil => trivial
    | cons x below => exact hs.turned_resume _ o
  | _ => trivial

theorem Point.turned {pt : RingPoint ι α} {a : RingMove ι α} (hn : p.size = n) (h0 : 0 < n)
    (hs : Sane n c pt) (ht : Turned n rs pt)
    (ha : a ∈ pt.moves p) :
    a.read (Turned n ((refusal? p pt).toList ++ rs)) fun _ => True := by
  cases Point.taken ha with
  | loop d hd =>
    obtain ⟨rfl, rfl, rfl, hi, hl⟩ := hs
    rcases d with ⟨p', l' | ⟨x, k⟩⟩ | ⟨p', o⟩
    · trivial
    · cases k <;> trivial
    · trivial
  | @run place u r below d hd =>
    have hf := (Run.effect (n := n) hd).2
    rcases d with ⟨p', r' | ⟨x, k⟩⟩ | ⟨p', o⟩
    · cases r' <;> trivial
    · cases k with
      | run u => exact hf.elim
      | submit o => trivial
    · cases below with
      | nil => trivial
      | cons x below => exact Stacked.turned_resume hs _ o
  | submit d hd => exact Submit.turned hn h0 hs ht hd
  | shutdown d hd => exact hs.elim
  | await d hz hd => cases d <;> trivial

end Turned

section Runs

variable [BEq ι] {c : Config} {cores : Nat} {p : Rings ι α} {log : Log ι α} {k : RingCrew ι α}

theorem run_turned (hp : Pool.new c cores = .ok p) (hn : p.size ≤ 2 ^ 63)
    (h : Crew.Run calls (fun k c => Serves p.size k c) ⟨p, []⟩ log k) (hb : claims log < 2 ^ 63)
    {i : Nat} {c : Call ι α} {pt : RingPoint ι α} (ht : k.threads[i]? = some (.running c pt)) :
    Turned p.size (refusals i log) pt := by
  have h0 := (new_ok hp).1
  refine h.thread (fun i log t => claims log < 2 ^ 63 → ∀ c pt, t = .running c pt →
    Turned p.size (refusals i log) pt) ?_ ?_ ?_ ?_ ht hb c pt rfl
  · simp
  · rintro log k c - hc - d pt ⟨⟩
    cases c <;> trivial
  · intro i t e log hne ih hb c pt he
    rw [refusals_cons_ne hne]
    rw [claims_cons] at hb
    exact ih (by omega) c pt he
  · intro log s before after c q a hr ha ih hb d pt he
    rw [claims_cons] at hb
    have hb : claims log < 2 ^ 63 := by omega
    obtain ⟨G, hs, hk⟩ := run_sound hp hn hr hb fun _ => true
    have hsize : s.size = p.size := core_size s ▸ hs.size
    have hturned := Point.turned hsize h0 (hk (.running c q) (by simp)).1
      (ih hb c q rfl) ha
    cases a with
    | go s' pt' =>
      cases he
      rw [refusals_cons_self (i := before.length) rfl]
      exact hturned
    | done s' r => cases he

end Runs

end Pool

end WorkStealing
