import WorkStealing.Proofs.Pool.Advance
import WorkStealing.Proofs.Pool.Stack

namespace WorkStealing.Pool

variable {ι α : Type}

abbrev RingThread (ι α : Type) := Thread (Call ι α) (RingPoint ι α) (Reply α)

abbrev RingCrew (ι α : Type) := Crew (Rings ι α) (Call ι α) (RingPoint ι α) (Reply α)

abbrev Log (ι α : Type) :=
  List (Crew.Entry (Rings ι α) (Call ι α) (RingPoint ι α) (Reply α))

def Call.worker? : Call ι α → Option Nat
  | .work i => some i
  | _ => none

def threadCall : RingThread ι α → Call ι α
  | .running c _ => c
  | .finished c _ => c

/-- Each worker is started once, and nobody shuts the pool down. -/
def Serves (n : Nat) (k : RingCrew ι α) : Call ι α → Bool
  | .work i => decide (i < n) && k.threads.all fun t => (threadCall t).worker? != some i
  | .shutdown _ => false
  | _ => true

def Deed.submitted? {β : Type} : Deed β → Option β
  | .submitted t => some t
  | _ => Option.none

def Deed.begun? {β : Type} : Deed β → Option β
  | .begun t => some t
  | _ => Option.none

def Deed.dropped? {β : Type} : Deed β → Option β
  | .dropped t => some t
  | _ => Option.none

def submitted (log : Log ι α) : List (Item ι α) :=
  log.filterMap fun e => (deed e.point e.move).submitted?

def begun (log : Log ι α) : List (Item ι α) :=
  log.filterMap fun e => (deed e.point e.move).begun?

def dropped (log : Log ι α) : List (Item ι α) :=
  log.filterMap fun e => (deed e.point e.move).dropped?

def isClaim : RingMove ι α → Bool
  | .go _ (.busy _ (.submit (.push (.offer _ _ _ (.write _ _)) _)) _) => true
  | .go _ (.busy _ (.submit (.pushChunk _ _ _ (.offer _ _ _ (.write _ _)))) _) => true
  | _ => false

def claims (log : Log ι α) : Nat := log.countP fun e => isClaim e.move

theorem Loop.seeking (i n : Nat) (l : Loop (Ring.Pop (Item ι α)) ι α) : (l.view i n).Seeking := by
  cases l with
  | search s =>
    cases s with
    | steal left s => cases s <;> trivial
    | sleep s =>
      cases s with
      | recheck k =>
        cases k with
        | steal s => cases s <;> trivial
        | _ => trivial
      | retract x => cases x <;> trivial
      | wait w => cases w <;> trivial
      | _ => trivial
    | _ => trivial
  | _ => trivial

theorem notify_quiet (k : Gate.Notify) : (notifyView k : View (Item ι α)).claiming = 0 ∧
    (notifyView k : View (Item ι α)).napping = 0 := by
  cases k with
  | look limit => exact ⟨rfl, rfl⟩
  | post m q => cases q <;> exact ⟨rfl, rfl⟩

theorem Wake.quiet (w : Wake) : (w.view : View (Item ι α)).claiming = 0 ∧
    (w.view : View (Item ι α)).napping = 0 := by
  cases w with
  | notify k => exact notify_quiet k
  | count posted => exact ⟨rfl, rfl⟩

theorem Shutdown.quiet (n : Nat) (s : Shutdown (Ring.Pop (Item ι α)) ι α) :
    (s.view n).claiming = 0 ∧ (s.view n).napping = 0 := by
  cases s with
  | notify waiting k => exact notify_quiet k
  | drain i d k =>
    rw [Shutdown.view]
    split <;> exact ⟨rfl, rfl⟩
  | _ => exact ⟨rfl, rfl⟩

theorem Submit.napping (n : Nat) (s : Submit (Ring.Push (Item ι α)) ι α) :
    (s.view n).napping = 0 := by
  cases s with
  | push s h => cases s <;> rfl
  | pushChunk r start pushed s => cases s <;> rfl
  | wake w h => exact w.quiet.2
  | wakeAll r start w => exact w.quiet.2
  | _ => rfl

theorem claiming_eq (n : Nat) (a : RingMove ι α) :
    (a.read (Point.view n) fun _ => View.away).claiming = (isClaim a).toNat := by
  rcases a with ⟨p, ⟨place, top, below⟩ | ⟨slot, w⟩⟩ | ⟨p, r⟩
  · cases top with
    | loop i l => exact (l.seeking i n).quiet.1
    | run t r => cases r <;> rfl
    | submit s =>
      cases s with
      | push s h =>
        cases s with
        | offer t start o e => cases e <;> rfl
        | _ => rfl
      | pushChunk r start pushed s =>
        cases s with
        | offer t start o e => cases e <;> rfl
        | _ => rfl
      | wake w h => exact w.quiet.1
      | wakeAll r start w => exact w.quiet.1
      | _ => rfl
    | shutdown unwinding s => exact (s.quiet n).1
  · rfl
  · rfl

theorem Deed.countP_submitted {β : Type} (d : Deed β) (f : β → Bool) :
    (d.submitted?.toList.countP f) = d.submits f := by
  cases d with
  | submitted t => cases h : f t <;> simp [submitted?, submits, h]
  | _ => rfl

theorem Deed.countP_begun {β : Type} (d : Deed β) (f : β → Bool) :
    (d.begun?.toList.countP f) = d.begins f := by
  cases d with
  | begun t => cases h : f t <;> simp [begun?, begins, h]
  | _ => rfl

theorem Deed.countP_settled {β : Type} (d : Deed β) (f : β → Bool) :
    d.begun?.toList.countP f + d.dropped?.toList.countP f = d.settles f := by
  cases d with
  | begun t => cases h : f t <;> simp [begun?, dropped?, settles, h]
  | dropped t => cases h : f t <;> simp [begun?, dropped?, settles, h]
  | _ => rfl

theorem dropped?_submit {place : Place} {below : List (RingActivity ι α)}
    (s : Submit (Ring.Push (Item ι α)) ι α) (a : RingMove ι α) :
    (deed (.busy place (.submit s) below) a).dropped? = none := by
  unfold deed
  split <;> simp_all [Deed.dropped?]

section Cons

variable (e : Crew.Entry (Rings ι α) (Call ι α) (RingPoint ι α) (Reply α)) (log : Log ι α)

theorem countP_submitted_cons (f : Item ι α → Bool) : (submitted (e :: log)).countP f =
    (submitted log).countP f + (deed e.point e.move).submits f := by
  rw [← Deed.countP_submitted]
  cases h : (deed e.point e.move).submitted? <;> simp [submitted, h, List.countP_cons]

theorem countP_begun_cons (f : Item ι α → Bool) : (begun (e :: log)).countP f =
    (begun log).countP f + (deed e.point e.move).begins f := by
  rw [← Deed.countP_begun]
  cases h : (deed e.point e.move).begun? <;> simp [begun, h, List.countP_cons]

theorem countP_settled_cons (f : Item ι α → Bool) :
    (begun (e :: log)).countP f + (dropped (e :: log)).countP f =
      (begun log).countP f + (dropped log).countP f + (deed e.point e.move).settles f := by
  rw [← Deed.countP_settled]
  cases h : (deed e.point e.move).begun? <;> cases h' : (deed e.point e.move).dropped? <;>
    simp only [begun, dropped, List.filterMap_cons, h, h', List.countP_cons, Option.toList_none,
      Option.toList_some, List.countP_nil] <;> omega

theorem dropped_cons :
    dropped (e :: log) = (deed e.point e.move).dropped?.toList ++ dropped log := by
  cases h : (deed e.point e.move).dropped? <;> simp [dropped, h]

theorem claims_cons : claims (e :: log) = claims log + (isClaim e.move).toNat := by
  cases h : isClaim e.move <;> simp [claims, h]

theorem claims_lt {older log : Log ι α} {n : Nat} (hs : older <:+ log) (hb : claims log < n) :
    claims older < n := Nat.lt_of_le_of_lt hs.sublist.countP_le hb

end Cons

section Runs

variable {n cap : Nat}

def actor (n : Nat) : RingThread ι α → Actor (Item ι α)
  | .running c pt => (c.worker?, pt.view n)
  | .finished c _ => (c.worker?, .away)

def share (n : Nat) (t : RingThread ι α) : Multiset (Actor (Item ι α)) := {actor n t}

theorem mem_total_share {k : RingCrew ι α} {a : Actor (Item ι α)} :
    a ∈ Crew.total (share n) k ↔ ∃ t ∈ k.threads, actor n t = a := by
  have he : Crew.total (share n) k = (k.threads.map (actor n) : Multiset (Actor (Item ι α))) := by
    simp only [Crew.total]
    induction k.threads with
    | nil => rfl
    | cons t ts ih => rw [List.map_cons, List.sum_cons, ih]; rfl
  rw [he, Multiset.mem_coe, List.mem_map]

theorem tot_total_share (F : View (Item ι α) → Nat) (n : Nat) (k : RingCrew ι α) :
    tot F (Crew.total (share n) k) = Crew.total (fun t => F (actor n t).2) k := by
  simp only [Crew.total]
  induction k.threads with
  | nil => rfl
  | cons t ts ih =>
    rw [List.map_cons, List.sum_cons, List.map_cons, List.sum_cons, ← ih, share,
      Multiset.singleton_add, tot_cons]

def Knows (n cap : Nat) (G : Nat → Ghost (Item ι α)) : RingThread ι α → Prop
  | .running c pt => Sane n c pt ∧ (pt.view n).Knows cap G
  | .finished c _ => ∀ i, c ≠ .work i

theorem Knows.mono {G H : Nat → Ghost (Item ι α)} (t : RingThread ι α)
    (l : ∀ q, (G q).Le (H q)) (hk : Knows n cap G t) : Knows n cap H t := by
  cases t with
  | running c pt => exact ⟨hk.1, hk.2.mono l⟩
  | finished c r => exact hk

theorem actor_worker (n : Nat) (t : RingThread ι α) : (actor n t).1 = (threadCall t).worker? := by
  cases t <;> rfl

theorem notMem_workers {k : RingCrew ι α} {i : Nat}
    (h : k.threads.all fun t => (threadCall t).worker? != some i) :
    i ∉ (Crew.total (share n) k).filterMap Prod.fst := by
  intro hm
  obtain ⟨a, ha, he⟩ := (Multiset.mem_filterMap _ _).1 hm
  obtain ⟨t, ht, rfl⟩ := mem_total_share.1 ha
  have := List.all_eq_true.1 h t ht
  rw [actor_worker] at he
  simp [he] at this

theorem Serves.worker {k : RingCrew ι α} {c : Call ι α} (h : Serves n k c) :
    ∀ i ∈ c.worker?, i < n ∧ i ∉ (Crew.total (share n) k).filterMap Prod.fst := by
  intro i hi
  cases c with
  | work j =>
    obtain rfl : j = i := by simpa [Call.worker?] using hi
    obtain ⟨hlt, hall⟩ := Bool.and_eq_true_iff.1 h
    exact ⟨of_decide_eq_true hlt, notMem_workers hall⟩
  | _ => simp [Call.worker?] at hi

theorem Serves.enter {k : RingCrew ι α} {c : Call ι α} (h : Serves n k c) :
    Sane n c c.enter ∧ (c.enter : RingPoint ι α).view n = .away := by
  cases c with
  | work i => exact ⟨⟨rfl, rfl, rfl, (Serves.worker h i rfl).1, trivial⟩, rfl⟩
  | submit o => exact ⟨.caller o, rfl⟩
  | shutdown unwinding => simp [Serves] at h
  | await slot => exact ⟨rfl, rfl⟩

theorem Framed.napping {c : Call ι α} {pt : RingPoint ι α} (h : Framed n c pt)
    (hp : 0 < (pt.view n).napping) : c.worker?.isSome := by
  rcases pt with ⟨place, top, below⟩ | ⟨slot, w⟩
  · cases top with
    | loop i l =>
      obtain ⟨rfl, -⟩ := h
      rfl
    | run t r => cases r <;> exact absurd hp (Nat.lt_irrefl 0)
    | submit s => exact absurd hp (by simp [Point.view, Activity.view, s.napping])
    | shutdown unwinding s => exact absurd hp (by simp [Point.view, Activity.view, (s.quiet n).2])
  · exact absurd hp (Nat.lt_irrefl 0)

theorem new_ok {c : Config} {cores : Nat} {p : Rings ι α} (hp : Pool.new c cores = .ok p) :
    0 < p.size ∧ ∃ r, Ring.new c.queueCapacity none = .ok r ∧
      core p = ⟨List.replicate p.size r, {}, List.replicate p.size .running⟩ := by
  simp only [Pool.new] at hp
  split at hp
  · cases hp
  · rename_i n hn
    split at hp
    · cases hp
    · rename_i r hr
      obtain rfl := Except.ok.inj hp
      exact ⟨by simp [size, ofQueue], r, hr, by simp [core, size, ofQueue]⟩

variable [BEq ι] {c : Config} {cores : Nat} {p : Rings ι α} {log : Log ι α} {k : RingCrew ι α}

theorem run_keeps (hp : Pool.new c cores = .ok p) (hn : p.size ≤ 2 ^ 63)
    (h : Crew.Run calls (fun k c => Serves p.size k c) ⟨p, []⟩ log k) (hb : claims log < 2 ^ 63)
    (f : Item ι α → Bool)
    (Extra : Gate → (Nat → Ghost (Item ι α)) → Multiset (Actor (Item ι α)) → Prop)
    (Within : Log ι α → Prop) (hw : Within log) (tail : ∀ e log, Within (e :: log) → Within log)
    (init : Extra {} (fun _ => .start) 0)
    (join : ∀ g G m o, Extra g G m → Extra g G ((o, .away) ::ₘ m))
    (step : ∀ e log G H m o s b, Within (e :: log) →
      Sound p.size c.queueCapacity.toNat f (core e.before) G s b
        ((o, e.point.view p.size) ::ₘ m) →
      (e.point.view p.size).Knows c.queueCapacity.toNat G →
      Effect p.size (core e.before) (e.point.view p.size) (deed e.point e.move)
        (core e.move.state) (e.move.read (Point.view p.size) fun _ => .away) →
      (∀ q, (G q).Le (H q)) →
      claimed p.size H =
        claimed p.size G + (e.move.read (Point.view p.size) fun _ => .away).claiming →
      claimed p.size H < 2 ^ 63 →
      Extra (core e.before).gate G ((o, e.point.view p.size) ::ₘ m) →
      Extra (core e.move.state).gate H
        ((o, e.move.read (Point.view p.size) fun _ => .away) ::ₘ m)) :
    ∃ G : Nat → Ghost (Item ι α),
      Sound p.size c.queueCapacity.toNat f (core k.state) G ((submitted log).countP f)
        ((begun log).countP f) (Crew.total (share p.size) k) ∧
      Extra (core k.state).gate G (Crew.total (share p.size) k) ∧
      ∀ t ∈ k.threads, Knows p.size c.queueCapacity.toNat G t := by
  obtain ⟨hpos, r, hr, hcore⟩ := new_ok hp
  suffices hi : ∃ G : Nat → Ghost (Item ι α),
      (Sound p.size c.queueCapacity.toNat f (core k.state) G ((submitted log).countP f)
        ((begun log).countP f) (Crew.total (share p.size) k) ∧ claimed p.size G = claims log ∧
        Extra (core k.state).gate G (Crew.total (share p.size) k)) ∧
      ∀ t ∈ k.threads, Knows p.size c.queueCapacity.toNat G t by
    obtain ⟨G, ⟨hs, -, he⟩, hk⟩ := hi
    exact ⟨G, hs, he, hk⟩
  refine h.invariant (share p.size)
    (fun log G s m => Sound p.size c.queueCapacity.toNat f (core s) G ((submitted log).countP f)
      ((begun log).countP f) m ∧ claimed p.size G = claims log ∧ Extra (core s).gate G m)
    (Knows p.size c.queueCapacity.toNat) (fun log _ => claims log < 2 ^ 63 ∧ Within log)
    (fun G H => ∀ q, (G q).Le (H q)) (fun _ _ t l hk => hk.mono t l) ?_ ?_ ?_ ?_ ?_ ⟨hb, hw⟩
  · refine ⟨fun _ => .start, ⟨?_, ?_, ?_⟩, by simp⟩
    · rw [hcore]
      exact sound_start hr
    · simp [claimed, claims, Ghost.start]
    · rw [hcore]
      exact init
  · exact fun _ _ _ hw => hw
  · rintro log m i c s pt a - ⟨hb, hw⟩
    rw [claims_cons] at hb
    exact ⟨by omega, tail _ _ hw⟩
  · rintro log G k c hc ⟨hs, hl, he⟩ -
    obtain ⟨h1, h2⟩ := Serves.enter hc
    have hview : Multiset.cons (c.worker?, View.away) (Crew.total (share p.size) k) =
        share p.size (.running c c.enter) + Crew.total (share p.size) k := by
      rw [← h2, ← Multiset.singleton_add]
      rfl
    refine ⟨G, fun q => .refl _, ⟨?_, hl, ?_⟩, h1, ?_⟩
    · exact hview ▸ hs.join (Serves.worker hc)
    · exact hview ▸ join _ _ _ _ he
    · change View.Knows _ G (Point.view p.size c.enter)
      rw [h2]
      trivial
  · rintro log G m i c s pt a ha ⟨hs, hl, hextra⟩ ⟨hsane, hk⟩ ⟨hb, hw⟩
    rw [claims_cons] at hb
    change claims log + (isClaim a).toNat < _ at hb
    have hsize : s.size = p.size := core_size s ▸ hs.size
    obtain ⟨he, hland⟩ := Point.effect hsize hs.running hsane ha
    have hclaim := claiming_eq p.size a
    have ho : 0 < (a.read (Point.view p.size) fun _ => View.away).napping → c.worker?.isSome := by
      cases a with
      | go s pt => exact Framed.napping (Sane.framed hland)
      | done s r => exact fun h => absurd h (Nat.lt_irrefl 0)
    obtain ⟨H, hle, hs', hk', hc'⟩ := hs.step hk he ho hn (by omega)
    have hextra' := step _ _ _ _ _ _ _ _ hw hs hk he hle hc' (by omega) hextra
    refine ⟨H, hle, ⟨?_, ?_, ?_⟩, ?_⟩
    · rw [countP_submitted_cons, countP_begun_cons]
      cases a <;> exact hs'
    · rw [claims_cons, hc', hl, hclaim]
    · cases a <;> exact hextra'
    · cases a with
      | go s pt => exact ⟨hland, hk'⟩
      | done s r => exact hland

theorem run_sound (hp : Pool.new c cores = .ok p) (hn : p.size ≤ 2 ^ 63)
    (h : Crew.Run calls (fun k c => Serves p.size k c) ⟨p, []⟩ log k) (hb : claims log < 2 ^ 63)
    (f : Item ι α → Bool) : ∃ G : Nat → Ghost (Item ι α),
      Sound p.size c.queueCapacity.toNat f (core k.state) G ((submitted log).countP f)
        ((begun log).countP f) (Crew.total (share p.size) k) ∧
      ∀ t ∈ k.threads, Knows p.size c.queueCapacity.toNat G t := by
  obtain ⟨G, hs, -, hk⟩ := run_keeps hp hn h hb f (fun _ _ _ => True) (fun _ => True) trivial
    (fun _ _ _ => trivial) trivial (fun _ _ _ _ _ => trivial)
    (fun _ _ _ _ _ _ _ _ _ _ _ _ _ _ _ _ => trivial)
  exact ⟨G, hs, hk⟩

end Runs

end WorkStealing.Pool
