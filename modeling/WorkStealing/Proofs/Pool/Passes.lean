import WorkStealing.Proofs.Pool.Stopping
import WorkStealing.Proofs.Pool.Stranded

namespace WorkStealing

def Gate.Notify.posts : Gate.Notify → Nat
  | .post _ (.add k) => k
  | _ => 0

/-- Wakes all sleepers while nobody else moves, and tells how many permits it posted for them. -/
def Gate.broadcast (g : Gate) : Option (Gate × Nat) :=
  (⟨id, fun g k => k.moves g⟩ : Machine Gate Gate.Notify Gate.Notify Nat).run 3 g .all

theorem Gate.broadcast_eq {g : Gate} {k : Nat} (hs : g.sleepers = k) (hk : k < UInt64.size)
    (hz : g.semaphore.permits = 0) (hc : g.semaphore.count.toInt = -k ∨ k = 0) :
    ∃ g', g.broadcast = some (g', k) ∧ g'.semaphore.permits = k := by
  have hmin : min g.sleepers (UInt64.size - 1) = k := by omega
  cases k with
  | zero =>
    refine ⟨g, ?_, hz⟩
    simp only [broadcast, Machine.run, Machine.runFrom, id_eq, Notify.all, Notify.moves, hmin]
  | succ k =>
    have hcount : g.semaphore.count.toInt = -(k + 1 : Nat) := hc.resolve_right k.succ_ne_zero
    have hneg : g.semaphore.count < 0 := by
      rw [Int64.lt_iff_toInt_lt, Int64.toInt_zero]
      omega
    have hrelease : min g.semaphore.count.toInt.natAbs (k + 1) = k + 1 := by omega
    refine ⟨g.setSemaphore ⟨g.semaphore.count + .ofNat (k + 1), g.semaphore.permits + (k + 1)⟩,
      ?_, ?_⟩
    · simp only [broadcast, Machine.run, Machine.runFrom, id_eq, Notify.all, Notify.moves, hmin,
        Semaphore.Post.moves, if_pos hneg, hrelease, List.map_cons, List.map_nil, Move.embed,
        setSemaphore]
    · change g.semaphore.permits + (k + 1) = k + 1
      omega

namespace Pool

variable {ι α : Type}

section Steps

variable {β : Type} {n : Nat} {x x' : Core β} {v v' : View β} {d : Deed β}

theorem Shift.sleepers (h : Shift n x v d x' v') (hpos : v.napping ≤ x.gate.sleepers) :
    x'.gate.sleepers + v.napping = x.gate.sleepers + v'.napping := by
  have fresh {v : View β} (h : v.Fresh) : v.napping = 0 := by
    rcases h with rfl | ⟨w, rfl⟩ <;> rfl
  cases h with
  | serve h =>
    cases h with
    | still h => rw [h.napping]
    | declare => rfl
    | retract => exact Nat.sub_add_cancel hpos
    | wake => exact Nat.sub_add_cancel hpos
    | _ => rfl
  | call limit => rfl
  | next hr ha hv =>
    change x.gate.sleepers + 0 = _
    rw [fresh hv]
  | discard t hv =>
    change x.gate.sleepers + 0 = _
    rw [fresh hv]

theorem View.Fresh.gate (h : v.Fresh) : v.stuck = 0 ∧ v.adds = 0 ∧ v.owes = 0 := by
  rcases h with rfl | ⟨w, rfl⟩ <;> exact ⟨rfl, rfl, rfl⟩

theorem Shift.parked (h : Shift n x v d x' v')
    (hsub : ∀ i, v = .committed i → Fits (x.gate.semaphore.count.toInt - 1))
    (hadd : Fits (x.gate.semaphore.count.toInt + v.adds)) :
    v'.stuck + x.gate.semaphore.permits + v.owes + (-x.gate.semaphore.count.toInt).toNat =
      v.stuck + x'.gate.semaphore.permits + v'.owes + (-x'.gate.semaphore.count.toInt).toNat ∧
    x'.gate.semaphore.count.toInt ≤ x.gate.semaphore.count.toInt + v.adds := by
  have calm (hv : v.stuck = 0 ∧ v.owes = 0) (hv' : v'.stuck = 0 ∧ v'.owes = 0)
      (hg : x'.gate.semaphore = x.gate.semaphore) :
      v'.stuck + x.gate.semaphore.permits + v.owes + (-x.gate.semaphore.count.toInt).toNat =
        v.stuck + x'.gate.semaphore.permits + v'.owes + (-x'.gate.semaphore.count.toInt).toNat ∧
      x'.gate.semaphore.count.toInt ≤ x.gate.semaphore.count.toInt + v.adds := by
    rw [hg, hv.1, hv.2, hv'.1, hv'.2]
    exact ⟨rfl, by omega⟩
  cases h with
  | serve h =>
    cases h with
    | still h =>
      obtain ⟨h1, h2, -, -, h5, h6⟩ := h.gate
      exact calm ⟨h1, h5⟩ ⟨h2, h6⟩ rfl
    | pass h =>
      cases Semaphore.Wait.step h (hsub _ rfl) with
      | pass hz hc hp =>
        simp only [Core.setGate, Gate.setSemaphore, View.stuck, View.owes, View.adds]
        omega
    | sink h =>
      cases Semaphore.Wait.step h (hsub _ rfl) with
      | sink hz hc hp =>
        simp only [Core.setGate, Gate.setSemaphore, View.stuck, View.owes, View.adds]
        omega
    | acquire h =>
      cases Semaphore.Wait.step h (fits_rest _) with
      | acquire hc hp =>
        simp only [Core.setGate, Gate.setSemaphore, View.stuck, View.owes, View.adds, hc]
        omega
    | add h =>
      cases Semaphore.Post.step h hadd with
      | add hz hc hp =>
        simp only [Core.setGate, Gate.setSemaphore, View.stuck, View.owes, View.adds]
        omega
    | owe h =>
      cases Semaphore.Post.step h hadd with
      | owe hz hc hp =>
        simp only [Core.setGate, Gate.setSemaphore, View.stuck, View.owes, View.adds]
        omega
    | release h =>
      cases Semaphore.Post.step h (fits_rest _) with
      | release hc hp =>
        simp only [Core.setGate, Gate.setSemaphore, View.stuck, View.owes, View.adds, hc]
        omega
    | _ => exact calm ⟨rfl, rfl⟩ ⟨rfl, rfl⟩ rfl
  | call limit => exact calm ⟨rfl, rfl⟩ ⟨rfl, rfl⟩ rfl
  | next hr ha hv => exact calm ⟨rfl, rfl⟩ ⟨hv.gate.1, hv.gate.2.2⟩ rfl
  | discard t hv => exact calm ⟨rfl, rfl⟩ ⟨hv.gate.1, hv.gate.2.2⟩ rfl

end Steps

section Gate

variable {β : Type} {n : Nat} {x x' : Core β} {v v' : View β} {d : Deed β} {o : Option Nat}
  {m : Multiset (Actor β)}

structure Counted (n : Nat) (g : Gate) (m : Multiset (Actor β)) : Prop extends Roster n m where
  sleepers : g.sleepers = tot View.napping m

structure Parked (g : Gate) (posted : Nat) (m : Multiset (Actor β)) : Prop where
  parked : tot View.stuck m = g.semaphore.permits + tot View.owes m +
    (-g.semaphore.count.toInt).toNat
  funded : g.semaphore.count.toInt + tot View.adds m ≤ posted

theorem Counted.shift (h : Counted n x.gate ((o, v) ::ₘ m)) (hs : Shift n x v d x' v')
    (ho : 0 < v'.napping → o.isSome) : Counted n x'.gate ((o, v') ::ₘ m) := by
  refine ⟨h.toRoster.turn ho, ?_⟩
  have hsleepers := h.sleepers
  simp only [tot_cons] at hsleepers ⊢
  have := hs.sleepers (by omega)
  omega

theorem Parked.shift {posted : Nat} (h : Parked x.gate posted ((o, v) ::ₘ m))
    (hr : Roster n ((o, v) ::ₘ m)) (hs : Shift n x v d x' v') (hn : n ≤ 2 ^ 63)
    (hb : posted < 2 ^ 63) : Parked x'.gate (posted + v'.adds) ((o, v') ::ₘ m) := by
  obtain ⟨hparked, hfunded⟩ := h
  simp only [tot_cons] at hparked hfunded
  have hmin := x.gate.semaphore.count.le_toInt
  have hmax := x.gate.semaphore.count.toInt_lt
  push_cast at hfunded
  have hsub (i : Nat) (hv : v = .committed i) : Fits (x.gate.semaphore.count.toInt - 1) := by
    subst hv
    have := hr.stuck_lt
    simp only [View.stuck] at hparked
    constructor <;> omega
  have hadd : Fits (x.gate.semaphore.count.toInt + v.adds) := by
    constructor <;> omega
  obtain ⟨h1, h2⟩ := hs.parked hsub hadd
  constructor
  · simp only [tot_cons]
    omega
  · simp only [tot_cons]
    push_cast
    omega

theorem tot_away {F : View β → Nat} (hF : F .away = 0) : tot F ((o, .away) ::ₘ m) = tot F m := by
  rw [tot_cons, hF, Nat.zero_add]

theorem Counted.join {g : Gate} (h : Counted n g m)
    (ho : ∀ i ∈ o, i < n ∧ i ∉ m.filterMap Prod.fst) : Counted n g ((o, .away) ::ₘ m) :=
  ⟨h.toRoster.join ho, h.sleepers.trans (tot_away rfl).symm⟩

theorem Parked.join {g : Gate} {posted : Nat} (h : Parked g posted m) :
    Parked g posted ((o, .away) ::ₘ m) := by
  constructor
  · rw [tot_away rfl, tot_away rfl]
    exact h.parked
  · rw [tot_away rfl]
    exact h.funded

theorem Roster.stuck_le (h : Roster n m) : tot View.stuck m ≤ n := by
  refine (tot_le_card fun a ha => ?_).trans h.card_le
  by_cases hz : 0 < a.2.napping
  · rw [h.napping a ha hz]
    exact a.2.stuck_le_napping.trans a.2.napping_le_one
  · have := a.2.stuck_le_napping
    omega

end Gate

section Runs

def posts : RingMove ι α → Nat
  | .go _ (.busy _ (.submit (.wake (.notify k) _)) _) => k.posts
  | .go _ (.busy _ (.submit (.wakeAll _ _ (.notify k))) _) => k.posts
  | .go _ (.busy _ (.shutdown _ (.notify _ k)) _) => k.posts
  | _ => 0

def posted (log : Log ι α) : Nat := (log.map fun e => posts e.move).sum

theorem notify_adds (k : Gate.Notify) : (notifyView k : View (Item ι α)).adds = k.posts := by
  cases k with
  | look limit => rfl
  | post m q => cases q <;> rfl

theorem adds_eq (n : Nat) (a : RingMove ι α) :
    (a.read (Point.view n) fun _ => View.away).adds = posts a := by
  rcases a with ⟨p, ⟨place, top, below⟩ | ⟨slot, w⟩⟩ | ⟨p, r⟩
  · cases top with
    | loop i l => exact (l.seeking i n).quiet.2.1
    | run t r => cases r <;> rfl
    | submit s =>
      cases s with
      | push s h => cases s <;> rfl
      | pushChunk r start pushed s => cases s <;> rfl
      | wake w h =>
        cases w with
        | notify k => exact notify_adds k
        | count posted => rfl
      | wakeAll r start w =>
        cases w with
        | notify k => exact notify_adds k
        | count posted => rfl
      | _ => rfl
    | shutdown unwinding s =>
      cases s with
      | notify waiting k => exact notify_adds k
      | drain i d k =>
        simp only [Move.read, Point.view, Activity.view, Shutdown.view, posts]
        split <;> rfl
      | _ => rfl
  · rfl
  · rfl

variable {n : Nat}

theorem Closes.worker {k : RingCrew ι α} {c : Call ι α} (h : Closes n k c) :
    ∀ i ∈ c.worker?, i < n ∧ i ∉ (Crew.total (share n) k).filterMap Prod.fst := by
  intro i hi
  cases c with
  | work j =>
    obtain rfl : j = i := by simpa [Call.worker?] using hi
    obtain ⟨hlt, hall⟩ := Bool.and_eq_true_iff.1 h
    exact ⟨of_decide_eq_true hlt, notMem_workers hall⟩
  | _ => simp [Call.worker?] at hi

theorem share_start [BEq ι] {k : RingCrew ι α} {c : Call ι α} (h : Enters n c) :
    Crew.total (share n) (k.start calls c) =
      (c.worker?, View.away) ::ₘ Crew.total (share n) k := by
  rw [Crew.total_start, ← Multiset.singleton_add, ← (Enters.frame h).2]
  rfl

theorem share_land (c : Call ι α) (a : RingMove ι α) : share n (a.land c).2 =
    {(c.worker?, a.read (Point.view n) fun _ => .away)} := by
  cases a <;> rfl

theorem Orderly.rests {k : RingCrew ι α} (h : Orderly n k)
    (hf : ∀ c pt, .running c pt ∈ k.threads → Framed n c pt) {u : Bool} {place : Place}
    {s : Shutdown (Ring.Pop (Item ι α)) ι α} {below : List (RingActivity ι α)}
    (ht : .running (.shutdown u) (.busy place (.shutdown u s) below) ∈ k.threads)
    (hs : (s.view n).owes = 0) (hwork : ∀ i pt, .running (.work i) pt ∈ k.threads → Asleep pt) :
    ∀ a ∈ Crew.total (share n) k, a.2.napping = a.2.stuck ∧ a.2.owes = 0 := by
  intro a ha
  obtain ⟨t, hmem, rfl⟩ := mem_total_share.1 ha
  rcases t with ⟨c, pt⟩ | ⟨c, r⟩
  · change (pt.view n).napping = (pt.view n).stuck ∧ (pt.view n).owes = 0
    cases c with
    | work i =>
      have hasleep := hwork i pt hmem
      unfold Asleep at hasleep
      split at hasleep
      · exact ⟨rfl, rfl⟩
      · exact hasleep.elim
    | submit o => exact absurd (h.quiet _ ht rfl _ hmem) (by simp [submitting])
    | shutdown u' =>
      cases eq_of_countP h.closers hmem ht rfl rfl
      exact ⟨(s.quiet n).2.trans (s.stuck n).symm, hs⟩
    | await slot =>
      have hframed := hf _ _ hmem
      rcases pt with ⟨place, top, below⟩ | ⟨slot, w⟩
      · cases top with
        | loop i l => cases hframed.1
        | run t r => exact absurd (Stacked.call hframed) (by simp)
        | submit s => exact absurd (Stacked.call hframed) (by simp)
        | shutdown u s => cases hframed.1
      · exact ⟨rfl, rfl⟩
  · exact ⟨rfl, rfl⟩

section Step

variable {p : Rings ι α} {c : Call ι α} {pt : RingPoint ι α} {a : RingMove ι α}
  {m : Multiset (Actor (Item ι α))}

theorem Mark.gate {β : Type} {x x' : Core β} (h : Mark x c pt a x') : x'.gate = x.gate := by
  cases h <;> rfl

theorem Shifts.counted (h : Shifts n p c pt a)
    (hc : Counted n p.gate ((c.worker?, pt.view n) ::ₘ m)) :
    Counted n a.state.gate ((c.worker?, a.read (Point.view n) fun _ => .away) ::ₘ m) := by
  obtain ⟨he | he, hland⟩ := h
  · refine Counted.shift (x := core p) hc he fun hp => ?_
    cases a with
    | go q pt' => exact Framed.napping hland hp
    | done q r => exact absurd hp (Nat.lt_irrefl 0)
  · obtain ⟨hv, -, hv', -⟩ := he.still n
    rw [hv', ← hv, show a.state.gate = p.gate from he.gate]
    exact hc

theorem Shifts.parked {posted : Nat} (h : Shifts n p c pt a)
    (hr : Roster n ((c.worker?, pt.view n) ::ₘ m)) (hn : n ≤ 2 ^ 63) (hb : posted < 2 ^ 63)
    (hp : Parked p.gate posted ((c.worker?, pt.view n) ::ₘ m)) :
    Parked a.state.gate (posted + posts a)
      ((c.worker?, a.read (Point.view n) fun _ => .away) ::ₘ m) := by
  rw [← adds_eq n]
  obtain ⟨he | he, -⟩ := h
  · exact Parked.shift (x := core p) hp hr he hn hb
  · obtain ⟨hv, -, hv', -⟩ := he.still n
    rw [hv', ← hv, show a.state.gate = p.gate from he.gate, hv]
    rw [hv] at hp
    exact hp

end Step

variable [BEq ι] {c : Config} {cores : Nat} {p : Rings ι α} {log : Log ι α} {k : RingCrew ι α}

theorem run_counted (hp : Pool.new c cores = .ok p)
    (h : Crew.Run calls (fun k c => Closes p.size k c) ⟨p, []⟩ log k) :
    Counted p.size k.state.gate (Crew.total (share p.size) k) := by
  induction h with
  | refl =>
    obtain ⟨-, r, -, hcore⟩ := new_ok hp
    have hgate : p.gate = {} := congrArg Core.gate hcore
    exact ⟨roster_start, by rw [hgate]; rfl⟩
  | start _ d hd ih =>
    rw [share_start (Closes.enters hd)]
    exact ih.join (Closes.worker hd)
  | move hr ha ih =>
    rename_i log s before after d pt a
    obtain ⟨hn, hs⟩ := run_framed (fun k c hc => Closes.enters hc) hr
    rw [Crew.total_split] at ih ⊢
    rw [share_land, Multiset.singleton_add]
    cases a <;> exact (Point.shifts hn (hs d pt (by simp)) ha).counted ih

theorem run_parked (hp : Pool.new c cores = .ok p) (hn : p.size ≤ 2 ^ 63)
    (h : Crew.Run calls (fun k c => Closes p.size k c) ⟨p, []⟩ log k) (hb : posted log < 2 ^ 63) :
    Parked k.state.gate (posted log) (Crew.total (share p.size) k) := by
  induction h with
  | refl =>
    obtain ⟨-, r, -, hcore⟩ := new_ok hp
    have hgate : p.gate = {} := congrArg Core.gate hcore
    rw [hgate]
    exact ⟨rfl, le_rfl⟩
  | start _ d hd ih =>
    rw [share_start (Closes.enters hd)]
    exact (ih hb).join
  | move hr ha ih =>
    rename_i log s before after d pt a
    obtain ⟨hsize, hs⟩ := run_framed (fun k c hc => Closes.enters hc) hr
    have hposted : posted (⟨before.length, d, s, pt, a⟩ :: log) = posted log + posts a :=
      Nat.add_comm _ _
    rw [hposted] at hb ⊢
    have hb' : posted log < 2 ^ 63 := by omega
    have hroster := (run_counted hp hr).toRoster
    have ih := ih hb'
    rw [Crew.total_split] at hroster ih ⊢
    rw [share_land, Multiset.singleton_add]
    cases a <;> exact (Point.shifts hsize (hs d pt (by simp)) ha).parked hroster hn hb' ih

theorem run_passes (hp : Pool.new c cores = .ok p) (hn : p.size ≤ 2 ^ 63)
    (h : Crew.Run calls (fun k c => Closes p.size k c) ⟨p, []⟩ log k) {u : Bool} {place : Place}
    {waiting : List Nat} {below : List (RingActivity ι α)} {a : RingMove ι α}
    (ha : a ∈ Point.moves k.state (.busy place (.shutdown u (.notify waiting .all)) below)) :
    asleep k ≤ posts a := by
  obtain ⟨hroster, hsleepers⟩ := run_counted hp h
  have hle : asleep k ≤ k.state.gate.sleepers := by
    rw [asleep_eq p.size, hsleepers]
    exact tot_mono View.stuck_le_napping _
  have hsize : asleep k ≤ p.size := asleep_eq p.size k ▸ hroster.stuck_le
  have hmax : UInt64.size - 1 = 2 ^ 64 - 1 := rfl
  cases Point.taken ha with
  | shutdown d hd =>
    cases Shutdown.step hd with
    | notified hz =>
      cases hz with
      | none hz => exact Nat.le_trans (by omega) (Nat.zero_le _)
    | notify hs =>
      cases hs with
      | @some _ l hs =>
        change asleep k ≤ l + 1
        omega

theorem run_rescues (hp : Pool.new c cores = .ok p) (hn : p.size ≤ 2 ^ 63)
    (h : Crew.Run calls (fun k c => Closes p.size k c) ⟨p, []⟩ log k) (hb : posted log < 2 ^ 63)
    {u : Bool} {place : Place} {s : Shutdown (Ring.Pop (Item ι α)) ι α}
    {below : List (RingActivity ι α)}
    (ht : .running (.shutdown u) (.busy place (.shutdown u s) below) ∈ k.threads)
    (hs : ∀ waiting m l, s ≠ .notify waiting (.post m (.release l)))
    (hwork : ∀ i pt, .running (.work i) pt ∈ k.threads → Asleep pt)
    (hz : k.state.gate.semaphore.permits = 0) :
    ∃ g, k.state.gate.broadcast = some (g, asleep k) ∧ g.semaphore.permits = asleep k := by
  have howes : (s.view p.size).owes = 0 := by
    cases s with
    | notify waiting x =>
      cases x with
      | look limit => rfl
      | post m q =>
        cases q with
        | add l => rfl
        | release l => exact absurd rfl (hs waiting m l)
    | drain i d l =>
      rw [Shutdown.view]
      split <;> rfl
    | _ => rfl
  have hrests := (run_orderly hp h).rests (run_framed (fun k c hc => Closes.enters hc) h).2 ht
    howes hwork
  obtain ⟨hroster, hsleepers⟩ := run_counted hp h
  have hparked := (run_parked hp hn h hb).parked
  have hle := hroster.stuck_le
  have hnap : tot View.napping (Crew.total (share p.size) k) =
      tot View.stuck (Crew.total (share p.size) k) :=
    congrArg Multiset.sum (Multiset.map_congr rfl fun a ha => (hrests a ha).1)
  have hzero : tot View.owes (Crew.total (share p.size) k) = 0 :=
    Multiset.sum_eq_zero fun y hy => by
      obtain ⟨a, ha, rfl⟩ := Multiset.mem_map.1 hy
      exact (hrests a ha).2
  rw [asleep_eq p.size]
  have hmax : UInt64.size = 2 ^ 64 := rfl
  exact Gate.broadcast_eq (hsleepers.trans hnap) (by omega) hz (by omega)

end Runs

end Pool

end WorkStealing
