import WorkStealing.Proofs.Pool.Stopping

namespace WorkStealing.Pool

variable {ι α : Type}

section Spare

def Recheck.spare {D : Type} : Recheck D ι α → Nat
  | .phase => 0
  | _ => 1

def sleepSpare {D : Type} : Gate.Sleep (Recheck D ι α) (Finding ι α) → Nat
  | .recheck k => k.spare
  | .retract (.task _) => 1
  | .wait .subtract => 1
  | _ => 0

def Search.spare {D : Type} : Search D ι α → Nat
  | .look => 0
  | .sleep s => sleepSpare s
  | .count => 0
  | _ => 1

def Loop.spare {D : Type} : Loop D ι α → Nat
  | .search s => s.spare
  | _ => 0

/-- How often a worker may still start a task or block in the gate before it looks at its phase. -/
def Point.spare : RingPoint ι α → Nat
  | .busy _ (.loop _ l) _ => l.spare
  | .busy _ (.run _ .begin) [.loop _ _] => 1
  | _ => 0

def starts : RingPoint ι α → Bool
  | .busy _ (.run _ .begin) [.loop _ _] => true
  | _ => false

def Search.commits {D : Type} : Search D ι α → Bool
  | .sleep (.wait .subtract) => true
  | _ => false

def Search.blocked {D : Type} : Search D ι α → Bool
  | .sleep (.wait .acquire) => true
  | _ => false

def Point.commits : RingPoint ι α → Bool
  | .busy _ (.loop _ (.search s)) _ => s.commits
  | _ => false

def Point.blocked : RingPoint ι α → Bool
  | .busy _ (.loop _ (.search s)) _ => s.blocked
  | _ => false

def blocks (pt : RingPoint ι α) (a : RingMove ι α) : Bool :=
  pt.commits && a.read Point.blocked fun _ => false

variable {p : Rings ι α} {i : Nat}

def Finding.spare : Finding ι α → Nat
  | .task _ => 1
  | .stop => 0

theorem Recheck.spare_step {k : Recheck (Ring.Pop (Item ι α)) ι α}
    {a : Move (Rings ι α) (Recheck (Ring.Pop (Item ι α)) ι α) (Option (Finding ι α))}
    (hp : p.phase? i ≠ some .running) (ha : a ∈ k.moves i p) :
    a.read Recheck.spare (fun x => (x.map Finding.spare).getD 1) ≤ k.spare := by
  cases Recheck.step ha with
  | begin h => exact absurd h hp
  | _ => exact le_rfl

theorem sleep_spare {s : Gate.Sleep (Recheck (Ring.Pop (Item ι α)) ι α) (Finding ι α)}
    {a : Move (Rings ι α) (Gate.Sleep (Recheck (Ring.Pop (Item ι α)) ι α) (Finding ι α))
      (Option (Finding ι α))}
    (hp : p.phase? i ≠ some .running) (ha : a ∈ s.moves (recheck i) p) :
    ((Search.sleep s).commits && a.read (fun s => (Search.sleep s).blocked) fun _ => false).toNat +
      a.read sleepSpare (fun x => (x.map Finding.spare).getD 0) ≤ sleepSpare s := by
  cases sleep_step ha with
  | recheck h | commit h => exact (Nat.zero_add _).trans_le (Recheck.spare_step hp h)
  | @find q k x h =>
    have hle := (Nat.zero_add _).trans_le (Recheck.spare_step hp h)
    cases x <;> exact hle
  | @retract x => cases x <;> exact le_rfl
  | @pass w s h => cases w <;> exact Nat.zero_le _
  | _ => exact le_rfl

theorem Search.spare_step {s : Search (Ring.Pop (Item ι α)) ι α}
    {a : Move (Rings ι α) (Search (Ring.Pop (Item ι α)) ι α) (Finding ι α)}
    (hp : p.phase? i ≠ some .running) (ha : a ∈ s.moves i p) :
    (s.commits && a.read Search.blocked fun _ => false).toNat +
      a.read Search.spare Finding.spare ≤ s.spare := by
  cases Search.step ha with
  | begin h => exact absurd h hp
  | rest => exact Nat.zero_le _
  | sleep h | found h | roused h | woken h => exact sleep_spare hp h
  | _ => exact le_rfl

theorem spare_resume {n : Nat} {c : Call ι α} {place : Place} {below : List (RingActivity ι α)}
    {x : RingActivity ι α} {b : Bool} (h : Stacked n c place b (x :: below)) (policy : PanicPolicy)
    (o : Outcome) : (Point.busy place (x.resume policy o) below).spare = 0 := by
  cases h with
  | worker hi =>
    cases o with
    | returned => rfl
    | panicked payload => cases policy <;> rfl
  | run h => cases o <;> rfl
  | inline h =>
    rename_i handle?
    cases o <;> cases handle? <;> rfl

theorem spare_done {n : Nat} {c : Call ι α} {place : Place} {below : List (RingActivity ι α)}
    {b : Bool} (h : Stacked n c place b below) (p' : Rings ι α) (o : Outcome) :
    (Point.land place below (.done p' o) : RingMove ι α).read Point.spare (fun _ => 0) = 0 := by
  cases below with
  | nil => rfl
  | cons x below => exact spare_resume h _ o

def takesUp (pt : RingPoint ι α) (a : RingMove ι α) : Nat := (starts pt).toNat + (blocks pt a).toNat

theorem Loop.spare_step {l : Loop (Ring.Pop (Item ι α)) ι α} {place : Place}
    {a : TurnMove (Ring (Item ι α)) ι α (Loop (Ring.Pop (Item ι α)) ι α)}
    (hp : p.phase? i ≠ some .running) (ha : a ∈ l.moves i p) :
    let a' : RingMove ι α := Point.land place [] (a.map (.loop i))
    takesUp (.busy place (.loop i l) []) a' + a'.read Point.spare (fun _ => 0) ≤ l.spare := by
  cases Loop.step ha with
  | search h | found h | told h =>
    have hle := Search.spare_step hp h
    rw [← Nat.zero_add (Bool.toNat _)] at hle
    exact hle
  | _ => exact le_rfl

theorem spare_of_ne {place : Place} {t : Item ι α} {r : Run ι α} {below : List (RingActivity ι α)}
    (h : r ≠ .begin) : (Point.busy place (.run t r) below : RingPoint ι α).spare = 0 := by
  cases r <;> first | rfl | exact absurd rfl h

theorem takesUp_run (place : Place) (t : Item ι α) (r : Run ι α)
    (below : List (RingActivity ι α)) (a : RingMove ι α) :
    takesUp (.busy place (.run t r) below) a =
      (Point.busy place (.run t r) below : RingPoint ι α).spare := by
  rcases below with _ | ⟨x, _ | ⟨y, l⟩⟩
  · cases r <;> rfl
  · cases r <;> cases x <;> rfl
  · cases r <;> cases x <;> rfl

theorem Point.spare_step [BEq ι] {n : Nat} {pt : RingPoint ι α} {a : RingMove ι α}
    (hn : p.size = n) (hs : Framed n (.work i) pt) (hp : p.phase? i ≠ some .running)
    (ha : a ∈ pt.moves p) : takesUp pt a + a.read Point.spare (fun _ => 0) ≤ pt.spare := by
  cases Point.taken ha with
  | @loop place j l below d hd =>
    obtain ⟨h, rfl, rfl, hi⟩ := hs
    obtain rfl : i = j := by simpa using h
    exact Loop.spare_step hp hd
  | run d hd =>
    have hf := (Run.effect (n := n) hd).2
    rw [takesUp_run]
    refine Nat.le_of_eq ?_
    rcases d with ⟨p', r' | ⟨x, k⟩⟩ | ⟨p', o⟩
    · exact congrArg _ (spare_of_ne hf)
    · cases k with
      | run u => exact hf.elim
      | submit o => rfl
    · exact congrArg _ (spare_done hs p' o)
  | submit d hd =>
    have hf := (Submit.effect hn hd).2
    refine Nat.le_of_eq ?_
    rcases d with ⟨p', s' | ⟨x, k⟩⟩ | ⟨p', o⟩
    · rfl
    · cases k with
      | run u => rfl
      | submit o => exact hf.elim
    · exact (Nat.zero_add _).trans (spare_done hs p' o)
  | shutdown d hd => cases hs.1
  | await slot w => cases hs

theorem Search.spare_le_one {D : Type} (s : Search D ι α) : s.spare ≤ 1 := by
  cases s with
  | sleep s =>
    cases s with
    | recheck k => cases k <;> simp [spare, sleepSpare, Recheck.spare]
    | retract x => cases x <;> simp [spare, sleepSpare]
    | wait w => cases w <;> simp [spare, sleepSpare]
    | _ => exact Nat.zero_le _
  | look => exact Nat.zero_le _
  | count => exact Nat.zero_le _
  | _ => exact le_rfl

theorem Point.spare_le_one (pt : RingPoint ι α) : pt.spare ≤ 1 := by
  unfold spare
  split
  · rename_i l _
    cases l with
    | search s => exact s.spare_le_one
    | _ => exact Nat.zero_le _
  · exact le_rfl
  · exact Nat.zero_le _

end Spare

section Runs

def lateTurns (i : Nat) (log : Log ι α) : Nat :=
  log.countP fun e => e.call.worker? == some i && e.before.phase? i != some .running &&
    (starts e.point || blocks e.point e.move)

def threadSpare (i : Nat) : RingThread ι α → Nat
  | .running (.work j) pt => if j = i then pt.spare else 0
  | _ => 0

theorem threadSpare_le (i : Nat) (t : RingThread ι α) :
    threadSpare i t ≤ if (threadCall t).worker? == some i then 1 else 0 := by
  unfold threadSpare
  split
  · rename_i j pt
    by_cases h : j = i
    · simpa [threadCall, Call.worker?, h] using pt.spare_le_one
    · simp [h]
  · exact Nat.zero_le _

theorem Orderly.spare_le {n : Nat} {k : RingCrew ι α} (h : Orderly n k) (i : Nat) :
    Crew.total (threadSpare i) k ≤ 1 :=
  calc Crew.total (threadSpare i) k
      ≤ Crew.total (fun t => if (threadCall t).worker? == some i then 1 else 0) k :=
        Crew.total_mono (threadSpare_le i) k
    _ = k.threads.countP fun t => (threadCall t).worker? == some i := Crew.total_countP _ k
    _ ≤ 1 := h.workers i

theorem lateTurns_cons (i : Nat) (e : Crew.Entry (Rings ι α) (Call ι α) (RingPoint ι α) (Reply α))
    (log : Log ι α) : lateTurns i (e :: log) = lateTurns i log +
      (e.call.worker? == some i && e.before.phase? i != some .running &&
        (starts e.point || blocks e.point e.move)).toNat := by
  rw [lateTurns, List.countP_cons, lateTurns]
  cases e.call.worker? == some i && e.before.phase? i != some .running &&
    (starts e.point || blocks e.point e.move) <;> rfl

variable [BEq ι] {c : Config} {cores : Nat} {p : Rings ι α} {log : Log ι α} {k : RingCrew ι α}

theorem run_lateTurns (hp : Pool.new c cores = .ok p)
    (h : Crew.Run calls (fun k c => Closes p.size k c) ⟨p, []⟩ log k) (i : Nat) :
    lateTurns i log + Crew.total (threadSpare i) k ≤ 1 ∧
      (k.state.phase? i = some .running → lateTurns i log = 0) := by
  induction h with
  | refl => exact ⟨Nat.zero_le _, fun _ => rfl⟩
  | start _ d _ ih =>
    have hz : threadSpare i (.running d (Call.enter d) : RingThread ι α) = 0 := by
      cases d with
      | work j => exact ite_self _
      | _ => rfl
    rw [Crew.total_start]
    change _ + (threadSpare i (.running d (Call.enter d)) + _) ≤ 1 ∧ _
    rw [hz, Nat.zero_add]
    exact ih
  | move hr ha ih =>
    rename_i log s before after d pt a
    obtain ⟨hn, hs⟩ := run_framed (fun k c hc => Closes.enters hc) hr
    have hframed := hs d pt (by simp)
    have horderly := run_orderly hp hr
    have honward := horderly.onward hn hframed ha i
    have hafter := (horderly.move hn hframed ha).spare_le i
    obtain ⟨hle, hzero⟩ := ih
    rw [lateTurns_cons]
    dsimp only
    by_cases hphase : s.phase? i = some .running
    · -- nothing has happened late so far
      have := hzero hphase
      simp only [hphase, bne_self_eq_false, Bool.and_false, Bool.false_and, Bool.toNat_false]
      exact ⟨by omega, fun _ => by omega⟩
    · refine ⟨?_, fun hi => absurd (Move.fst_land d a ▸ hi) fun hi => hphase (hi ▸ honward).running⟩
      rw [Crew.total_split, Crew.total_state _ _ s]
      rw [Crew.total_split] at hle
      by_cases hd : d.worker? = some i
      · obtain rfl : d = .work i := by cases d <;> simp_all [Call.worker?]
        have hstep := Point.spare_step hn hframed hphase ha
        have hland : threadSpare i (a.land (.work i)).2 = a.read Point.spare fun _ => 0 := by
          cases a with
          | go q pt => exact if_pos rfl
          | done q r => rfl
        have hself : threadSpare i (.running (.work i) pt) = pt.spare := if_pos rfl
        have htakes : (starts pt || blocks pt a).toNat ≤ takesUp pt a := by
          cases h1 : starts pt <;> cases h2 : blocks pt a <;> simp [takesUp, h1, h2]
        have hmine : ((Call.work i : Call ι α).worker? == some i && s.phase? i != some .running &&
            (starts pt || blocks pt a)) = (starts pt || blocks pt a) := by
          simp [Call.worker?, hphase]
        rw [hmine, hland]
        rw [hself] at hle
        omega
      · have hother (t : RingThread ι α) (ht : threadCall t = d) : threadSpare i t = 0 := by
          have := threadSpare_le i t
          rw [ht, if_neg (by simpa using hd)] at this
          omega
        have hnot : (d.worker? == some i) = false := by simpa using hd
        rw [hother _ (threadCall_land d a), hnot]
        simp only [Bool.false_and, Bool.toNat_false]
        omega

end Runs

end WorkStealing.Pool
