import WorkStealing.Blocking.Basic
import WorkStealing.Proofs.Blocking.Watch
import WorkStealing.Proofs.Queue.Staged

namespace WorkStealing.Blocking

open Queue (Part pushPart popPart givenPart gotPart Staged Stored)
open Role

variable {Q α E D : Type}

/-- What a call counts for at its points and after each result, and what it relies on. -/
structure Pose (P R α : Type) where
  role : P → Role → Nat
  rest : R → Role → Nat
  part : P → Part → Nat
  result : R → Part → Nat
  Knows : Ghost α → P → Prop

section

variable [Queue Q α E D] [Staged Q α E D]

structure Balanced (lucid : Prop) (n : Nat) (f : α → Bool) (g₀ : Ghost α) (q : Blocking Q) (g : Ghost α)
    (mr : Role → Nat) (mp : Part → Nat) : Prop where
  awake : Watch lucid q.closed g.ready q.gate.sleepers q.gate.semaphore.permits
    q.gate.semaphore.count.toInt mr
  stored : Stored n f g₀ q.base g mp

variable {lucid : Prop} {n : Nat} {f : α → Bool} {g₀ g h : Ghost α} {q t : Blocking Q} {mr : Role → Nat}
  {mp : Part → Nat} {P R P' R' : Type} {o : Pose P R α} {o' : Pose P' R' α} {adds : Int}
  {alone : Prop}

structure Keeps (lucid : Prop) (n : Nat) (f : α → Bool) (g₀ : Ghost α) (o : Pose P R α)
    (adds : Int) (alone : Prop)
    (q : Blocking Q) (g : Ghost α) (mr : Role → Nat) (mp : Part → Nat) (a : Move (Blocking Q) P R)
    (h : Ghost α) : Prop where
  le : g.Le h
  balanced : Balanced lucid n f g₀ a.state h (a.tally o.role o.rest + mr) (a.tally o.part o.result + mp)
  count : a.state.gate.semaphore.count.toInt = q.gate.semaphore.count.toInt + adds
  clear : alone → g.Clear → h.Clear
  knows : ∀ t p, a = .go t p → o.Knows h p

theorem Keeps.go {p : P} (hl : g.Le h) (hb : Balanced lucid n f g₀ t h (o.role p + mr) (o.part p + mp))
    (hc : t.gate.semaphore.count.toInt = q.gate.semaphore.count.toInt + adds)
    (hclear : alone → g.Clear → h.Clear) (hk : o.Knows h p) :
    Keeps lucid n f g₀ o adds alone q g mr mp (.go t p) h := by
  refine ⟨hl, hb, hc, hclear, ?_⟩
  rintro _ _ ⟨⟩
  exact hk

theorem Keeps.done {r : R} (hl : g.Le h)
    (hb : Balanced lucid n f g₀ t h (o.rest r + mr) (o.result r + mp))
    (hc : t.gate.semaphore.count.toInt = q.gate.semaphore.count.toInt + adds)
    (hclear : alone → g.Clear → h.Clear) : Keeps lucid n f g₀ o adds alone q g mr mp (.done t r) h :=
  ⟨hl, hb, hc, hclear, by simp⟩

theorem Keeps.still_go {p : P} (hb : Balanced lucid n f g₀ t g (o.role p + mr) (o.part p + mp))
    (hc : t.gate.semaphore.count.toInt = q.gate.semaphore.count.toInt + adds) (hk : o.Knows g p) :
    Keeps lucid n f g₀ o adds alone q g mr mp (.go t p) g :=
  .go (.refl g) hb hc (fun _ hc => hc) hk

theorem Keeps.still_done {r : R} (hb : Balanced lucid n f g₀ t g (o.rest r + mr) (o.result r + mp))
    (hc : t.gate.semaphore.count.toInt = q.gate.semaphore.count.toInt + adds) :
    Keeps lucid n f g₀ o adds alone q g mr mp (.done t r) g :=
  .done (.refl g) hb hc fun _ hc => hc

theorem Keeps.weaken {alone' : Prop} {a : Move (Blocking Q) P R}
    (hk : Keeps lucid n f g₀ o adds alone q g mr mp a h) (ha : alone' → alone) :
    Keeps lucid n f g₀ o adds alone' q g mr mp a h := { hk with clear := fun h => hk.clear (ha h) }

theorem Keeps.embed {a : Move (Blocking Q) P R} {stay : P → P'}
    {finish : Blocking Q → R → Move (Blocking Q) P' R'}
    (hk : Keeps lucid n f g₀ o adds alone q g mr mp a h) (hrole : ∀ p, o'.role (stay p) = o.role p)
    (hpart : ∀ p, o'.part (stay p) = o.part p) (hknows : ∀ p, o.Knows h p → o'.Knows h (stay p))
    (hstate : ∀ t r, (finish t r).state = t)
    (hrest : ∀ t r, (finish t r).tally o'.role o'.rest = o.rest r)
    (hresult : ∀ t r, (finish t r).tally o'.part o'.result = o.result r)
    (hgo : ∀ t r u p, finish t r = .go u p → o'.Knows h p) :
    Keeps lucid n f g₀ o' adds alone q g mr mp (a.embed id stay finish) h := by
  obtain ⟨h1, h2, h3, h4, h5⟩ := hk
  cases a with
  | go t p =>
    refine ⟨h1, ?_, h3, h4, ?_⟩
    · change Balanced lucid n f g₀ t h (o'.role (stay p) + mr) (o'.part (stay p) + mp)
      rw [hrole, hpart]
      exact h2
    · rintro _ _ ⟨⟩
      exact hknows p (h5 t p rfl)
  | done t r =>
    refine ⟨h1, ?_, ?_, h4, hgo t r⟩
    · change Balanced lucid n f g₀ (finish t r).state h ((finish t r).tally o'.role o'.rest + mr)
        ((finish t r).tally o'.part o'.result + mp)
      rw [hstate, hrest, hresult]
      exact h2
    · change (finish t r).state.gate.semaphore.count.toInt = _
      rw [hstate]
      exact h3

end

def notifier (r : Role) : Gate.Notify → Role → Nat
  | .look _ => Pi.single r 1
  | .post _ (.add n) => Pi.single adding n
  | .post _ (.release n) => Pi.single owed n

section Poses

variable [Queue Q α E D] [Staged Q α E D]

def left (f : α → Bool) (v : α) : Except (PushError α) Unit → Part → Nat
  | .ok _ => givenPart f v
  | .error _ => 0

def answer (f : α → Bool) : Except PopError α → Part → Nat
  | .ok v => gotPart f v
  | .error _ => 0

/-- `before` while a pop is looking for a value, and `after` once it has taken one. -/
def search (Q : Type) {α E D : Type} [Queue Q α E D] [Staged Q α E D] (d : D)
    (before after : Role → Nat) : Role → Nat :=
  if Staged.takes Q d then after else before

section

variable (Q)

def Enqueue.role : Enqueue α E → Role → Nat
  | .flag _ => 0
  | .push _ => 0
  | .notify n => notifier looking n

def Enqueue.part (f : α → Bool) (v : α) : Enqueue α E → Part → Nat
  | .flag _ => 0
  | .push e => pushPart Q e
  | .notify _ => givenPart f v

def Enqueue.Knows (n : Nat) (v : α) (g : Ghost α) : Enqueue α E → Prop
  | .flag w => w = v
  | .push e => Staged.Pushing Q n g v e
  | .notify (.look limit) => limit = 1
  | .notify (.post _ _) => True

def Enqueue.pose (n : Nat) (f : α → Bool) (v : α) :
    Pose (Enqueue α E) (Except (PushError α) Unit) α :=
  ⟨Enqueue.role, fun _ => 0, Enqueue.part Q f v, left f v, Enqueue.Knows Q n v⟩

def Recheck.role : Recheck D → Role → Nat
  | .first d => search Q d (Pi.single rechecking 1) (Pi.single leaving 1)
  | .flag => Pi.single doubting 1
  | .last _ => Pi.single leaving 1

def Recheck.part : Recheck D → Part → Nat
  | .first d => popPart Q d
  | .flag => 0
  | .last d => popPart Q d

def Recheck.Knows (g : Ghost α) : Recheck D → Prop
  | .first d => Staged.Popping Q g d
  | .flag => True
  | .last d => Staged.Popping Q g d

def Recheck.pose (f : α → Bool) : Pose (Recheck D) (Option (Except PopError α)) α where
  role := Recheck.role Q
  rest found := if found.isSome then Pi.single leaving 1 else Pi.single committed 1
  part := Recheck.part Q
  result found := found.elim 0 (answer f)
  Knows := Recheck.Knows Q

abbrev Sleeper (α D : Type) := Gate.Sleep (Recheck D) (Except PopError α)

def Sleeper.role : Sleeper α D → Role → Nat
  | .declare => Pi.single hungry 1
  | .recheck k => k.role Q
  | .retract _ => Pi.single leaving 1
  | .wait .subtract => Pi.single committed 1
  | .wait .acquire => Pi.single acquiring 1
  | .wake => Pi.single waking 1

def Sleeper.part (f : α → Bool) : Sleeper α D → Part → Nat
  | .recheck k => k.part Q
  | .retract r => answer f r
  | .declare | .wait _ | .wake => 0

def Sleeper.Knows (g : Ghost α) : Sleeper α D → Prop
  | .recheck k => k.Knows Q g
  | .declare | .retract _ | .wait _ | .wake => True

def Sleeper.pose (f : α → Bool) : Pose (Sleeper α D) (Option (Except PopError α)) α where
  role := Sleeper.role Q
  rest found := if found.isSome then 0 else Pi.single hungry 1
  part := Sleeper.part Q f
  result found := found.elim 0 (answer f)
  Knows := Sleeper.Knows Q

def Dequeue.role : Dequeue α D → Role → Nat
  | .spin _ d => search Q d (Pi.single hungry 1) 0
  | .flag => Pi.single hungry 1
  | .drain _ => 0
  | .sleep p => Sleeper.role Q p

def Dequeue.part (f : α → Bool) : Dequeue α D → Part → Nat
  | .spin _ d => popPart Q d
  | .flag => 0
  | .drain d => popPart Q d
  | .sleep p => Sleeper.part Q f p

def Dequeue.Knows (g : Ghost α) : Dequeue α D → Prop
  | .spin _ d => Staged.Popping Q g d
  | .flag => True
  | .drain d => Staged.Popping Q g d
  | .sleep p => Sleeper.Knows Q g p

def Dequeue.pose (f : α → Bool) : Pose (Dequeue α D) (Except PopError α) α :=
  ⟨Dequeue.role Q, fun _ => 0, Dequeue.part Q f, answer f, Dequeue.Knows Q⟩

def TryDequeue.part : TryDequeue D → Part → Nat
  | .pop d => popPart Q d
  | .verdict => 0

def TryDequeue.Knows (g : Ghost α) : TryDequeue D → Prop
  | .pop d => Staged.Popping Q g d
  | .verdict => True

def TryDequeue.pose (f : α → Bool) : Pose (TryDequeue D) (Except PopError α) α :=
  ⟨fun _ => 0, fun _ => 0, TryDequeue.part Q, answer f, TryDequeue.Knows Q⟩

end

def Close.role : Close → Role → Nat
  | .raise => 0
  | .notify n => notifier closing n

def Close.Knows : Close → Prop
  | .notify (.look n) => n = UInt64.size - 1
  | _ => True

def Close.pose (α : Type) : Pose Close Unit α :=
  ⟨Close.role, fun _ => 0, fun _ => 0, fun _ => 0, fun _ => Close.Knows⟩

end Poses

section Adds

def Enqueue.adds : Enqueue α E → Int
  | .flag _ => 0
  | .push _ => 0
  | .notify n => n.adds

def sleeperAdds : Sleeper α D → Int
  | .wait p => p.adds
  | .declare | .recheck _ | .retract _ | .wake => 0

def Dequeue.adds : Dequeue α D → Int
  | .spin _ _ => 0
  | .flag => 0
  | .drain _ => 0
  | .sleep p => sleeperAdds p

def Close.adds : Close → Int
  | .raise => 0
  | .notify n => n.adds

end Adds

section Steps

variable [Queue Q α E D] [Staged Q α E D] {lucid : Prop} {n : Nat} {f : α → Bool}
  {g₀ g : Ghost α} {q : Blocking Q} {mr : Role → Nat} {mp : Part → Nat} {P R : Type}

inductive Tried (lucid : Prop) (n : Nat) (f : α → Bool) (g₀ : Ghost α) (q : Blocking Q) (g : Ghost α)
    (before after mr : Role → Nat) (mp : Part → Nat) (stay : D → P)
    (finish : Blocking Q → Option α → Move (Blocking Q) P R) :
    Move (Blocking Q) P R → Ghost α → Prop where
  | go {b : Q} {d : D} {h : Ghost α} (le : g.Le h)
      (balanced : Balanced lucid n f g₀ (q.setBase b) h (search Q d before after + mr)
        (popPart Q d + mp))
      (clear : g.Clear → h.Clear) (knows : Staged.Popping Q h d) :
      Tried lucid n f g₀ q g before after mr mp stay finish (.go (q.setBase b) (stay d)) h
  | none {b : Q} (balanced : Balanced lucid n f g₀ (q.setBase b) g (before + mr) mp)
      (blind : g.Clear → g.ready = 0) :
      Tried lucid n f g₀ q g before after mr mp stay finish (finish (q.setBase b) none) g
  | some {b : Q} {v : α} {h : Ghost α} (le : g.Le h)
      (balanced : Balanced lucid n f g₀ (q.setBase b) h (after + mr) (gotPart f v + mp))
      (clear : g.Clear → h.Clear) :
      Tried lucid n f g₀ q g before after mr mp stay finish (finish (q.setBase b) (some v)) h

theorem tryBase_tried {d : D} {before after : Role → Nat} {stay : D → P}
    {finish : Blocking Q → Option α → Move (Blocking Q) P R} {a : Move (Blocking Q) P R}
    (hb : Balanced lucid n f g₀ q g (search Q d before after + mr) (popPart Q d + mp))
    (hk : Staged.Popping Q g d)
    (hstep : ∀ {len s p c}, Watch lucid q.closed (len + 1) s p c (before + mr) →
      Watch lucid q.closed len s p c (after + mr))
    (ha : a ∈ tryBase q d stay finish) :
    ∃ h, Tried lucid n f g₀ q g before after mr mp stay finish a h := by
  obtain ⟨c, hc, rfl⟩ := List.mem_map.1 ha
  obtain ⟨hw, hs⟩ := hb
  obtain ⟨h, hstep', hl, hs', hk'⟩ := hs.pop hk hc
  cases hstep' with
  | go size ready stays stock clear =>
    rename_i b d'
    refine ⟨h, .go hl ⟨?_, hs'⟩ clear (hk' _ _ rfl)⟩
    rw [search] at hw ⊢
    cases hd : Staged.takes Q d <;> cases hd' : Staged.takes Q d' <;> simp [hd, hd'] at hw ready stays ⊢
    · rw [ready]
      exact hw
    · rw [← ready] at hw
      exact hstep hw
    · rw [ready]
      exact hw
  | none free blind =>
    rw [search, free] at hw
    rw [Move.tally, Queue.poppedPart, zero_add] at hs'
    exact ⟨g, .none ⟨hw, hs'⟩ blind⟩
  | some size ready stock clear =>
    refine ⟨h, .some hl ⟨?_, hs'⟩ clear⟩
    rw [search] at hw
    cases hd : Staged.takes Q d <;> simp [hd] at hw ready
    · rw [← ready] at hw
      exact hstep hw
    · rw [ready]
      exact hw

theorem notify_keeps {o : Pose P R α} {alone : Prop} {r : Role} (part : Part → Nat)
    {stay : Gate.Notify → P} {finish : Blocking Q → Nat → Move (Blocking Q) P R}
    (hrole : ∀ p, o.role (stay p) = notifier r p) (hpart : ∀ p, o.part (stay p) = part)
    (hknows : ∀ k p, o.Knows g (stay (.post k p)))
    (hfinish : ∀ t k, ∃ x, finish t k = .done t x ∧ o.rest x = 0 ∧ o.result x = part)
    {p : Gate.Notify} {a : Move (Blocking Q) P R}
    (hb : Balanced lucid n f g₀ q g (notifier r p + mr) (part + mp))
    (hn : ∀ limit, p = .look limit →
      (r = looking ∧ limit = 1) ∨ (r = closing ∧ q.gate.sleepers ≤ limit))
    (ha : a ∈ Gate.notify q p stay finish)
    (hf : Fits (q.gate.semaphore.count.toInt + p.adds)) :
    Keeps lucid n f g₀ o p.adds alone q g mr mp a g := by
  obtain ⟨b, hb', rfl⟩ := List.mem_map.1 ha
  obtain ⟨hi, hs⟩ := hb
  have done_keeps {s : Semaphore} (k : Nat)
      (hw : Watch lucid q.closed g.ready q.gate.sleepers s.permits s.count.toInt mr)
      (hc : s.count.toInt = q.gate.semaphore.count.toInt + p.adds) :
      Keeps lucid n f g₀ o p.adds alone q g mr mp
        (finish (Gated.setGate q (q.gate.setSemaphore s)) k) g := by
    obtain ⟨x, hx, hrest, hresult⟩ := hfinish (Gated.setGate q (q.gate.setSemaphore s)) k
    rw [hx]
    refine .still_done ⟨?_, ?_⟩ hc
    · rw [hrest, zero_add]
      exact hw
    · rw [hresult]
      exact hs
  have go_keeps {s : Semaphore} {k : Nat} {l : Semaphore.Post}
      (hw : Watch lucid q.closed g.ready q.gate.sleepers s.permits s.count.toInt
        (notifier r (.post k l) + mr))
      (hc : s.count.toInt = q.gate.semaphore.count.toInt + p.adds) :
      Keeps lucid n f g₀ o p.adds alone q g mr mp
        (.go (Gated.setGate q (q.gate.setSemaphore s)) (stay (.post k l))) g := by
    refine .still_go ⟨?_, ?_⟩ hc (hknows _ _)
    · rw [hrole]
      exact hw
    · rw [hpart]
      exact hs
  cases Gate.Notify.step hb' hf with
  | none hz =>
    rename_i limit
    change min q.gate.sleepers limit = 0 at hz
    refine done_keeps 0 ?_ (Int.add_zero _).symm
    rcases hn _ rfl with ⟨rfl, rfl⟩ | ⟨rfl, hle⟩
    · exact Watch.look_none hi (by omega)
    · have hs : q.gate.sleepers = 0 := by omega
      have hd := Watch.dismiss hi
      rw [hs, Pi.single_zero, zero_add] at hd
      rwa [hs]
  | some hs =>
    rename_i limit k
    change min q.gate.sleepers limit = k + 1 at hs
    refine go_keeps ?_ (Int.add_zero _).symm
    rcases hn _ rfl with ⟨rfl, rfl⟩ | ⟨rfl, hle⟩
    · obtain rfl : k = 0 := by omega
      exact Watch.look_some hi
    · have hk : q.gate.sleepers = k + 1 := by omega
      have hd := Watch.dismiss hi
      rw [hk] at hd ⊢
      exact hd
  | post h =>
    cases h with
    | add hz hc hp =>
      refine done_keeps _ ?_ hc
      rw [hc, hp]
      exact Watch.add hi hz
    | owe hz hc hp =>
      refine go_keeps ?_ hc
      rw [hc, hp]
      exact Watch.owe hi hz
    | release hc hp =>
      refine done_keeps _ ?_ ?_
      · rw [hc, hp]
        exact Watch.release hi
      · rw [hc]
        exact (Int.add_zero _).symm

def Alone (mp : Part → Nat) : Prop :=
  ∀ p, mp (.hold (.claimed, p)) = 0 ∧ mp (.hold (.written, p)) = 0

theorem Enqueue.keeps {v : α} {p : Enqueue α E}
    {a : Move (Blocking Q) (Enqueue α E) (Except (PushError α) Unit)}
    (hb : Balanced lucid n f g₀ q g (p.role + mr) (p.part Q f v + mp)) (hp : p.Knows Q n v g)
    (ha : a ∈ p.moves q) (hwrap : Staged.Wraps Q → g₀.values.length + mp .claim + 1 < 2 ^ 63)
    (hf : Fits (q.gate.semaphore.count.toInt + p.adds)) :
    ∃ h, Keeps lucid n f g₀ (Enqueue.pose Q n f v) p.adds (Alone mp) q g mr mp a h := by
  cases p with
  | flag w =>
    obtain rfl : w = v := hp
    simp only [Enqueue.moves] at ha
    split at ha
    · obtain rfl := List.mem_singleton.1 ha
      exact ⟨g, .still_done hb (Int.add_zero _).symm⟩
    · obtain rfl := List.mem_singleton.1 ha
      refine ⟨g, .still_go ⟨hb.awake, ?_⟩ (Int.add_zero _).symm (Staged.push_enter n g w).1⟩
      change Stored n f g₀ q.base g (pushPart Q (Queue.pushing Q w) + mp)
      rw [Queue.pushPart_enter n g w]
      exact hb.stored
  | push e =>
    obtain ⟨c, hc, rfl⟩ := List.mem_map.1 ha
    obtain ⟨h, hstep, hl, hs, hk⟩ := hb.stored.push hp hc hwrap
    refine ⟨h, ?_⟩
    have hw := hb.awake
    cases hstep with
    | go size ready stock clear =>
      refine .go hl ⟨?_, hs⟩ (Int.add_zero _).symm (fun _ => clear) (hk _ _ rfl)
      rw [ready]
      exact hw
    | ok size ready stock =>
      refine .go hl ⟨?_, hs⟩ (Int.add_zero _).symm (fun halone _ => ?_) rfl
      · rw [ready]
        rw [Enqueue.role, zero_add] at hw
        exact Watch.push hw
      · refine (Staged.orderly hs.tracks).clear (fun p => ?_) fun p => ?_
        · simpa [Move.tally, Queue.pushedPart, givenPart] using (halone p).1
        · simpa [Move.tally, Queue.pushedPart, givenPart] using (halone p).2
    | error size => exact .done hl ⟨hw, hs⟩ (Int.add_zero _).symm fun _ hc => hc
  | notify m =>
    simp only [Enqueue.moves] at ha
    refine ⟨g, notify_keeps (givenPart f v) (fun _ => rfl) (fun _ => rfl)
      (fun _ _ => trivial) (fun _ _ => ⟨_, rfl, rfl, rfl⟩) hb ?_ ha hf⟩
    rintro limit rfl
    exact .inl ⟨rfl, hp⟩

theorem Close.keeps {p : Close} {a : Move (Blocking Q) Close Unit}
    (hb : Balanced lucid n f g₀ q g (p.role + mr) (0 + mp)) (hp : p.Knows) (ha : a ∈ p.moves q)
    (hs : q.gate.sleepers < UInt64.size) (hf : Fits (q.gate.semaphore.count.toInt + p.adds)) :
    Keeps lucid n f g₀ (Close.pose α) p.adds True q g mr mp a g := by
  cases p with
  | raise =>
    obtain rfl := List.mem_singleton.1 ha
    obtain ⟨hw, hst⟩ := hb
    rw [Close.role, zero_add] at hw
    exact .still_go ⟨Watch.close hw, hst⟩ (Int.add_zero _).symm rfl
  | notify m =>
    simp only [Close.moves] at ha
    refine notify_keeps 0 (fun _ => rfl) (fun _ => rfl) (fun _ _ => trivial)
      (fun _ _ => ⟨_, rfl, rfl, rfl⟩) hb ?_ ha hf
    rintro limit rfl
    have : limit = UInt64.size - 1 := hp
    exact .inr ⟨rfl, by omega⟩

theorem search_enter (g : Ghost α) (before after : Role → Nat) :
    search Q (Queue.popping Q) before after = before :=
  if_neg (by simp [(Staged.pop_enter (Q := Q) g).2.2])

theorem tryBase_keeps {o : Pose P R α} {r : Role → Nat} {d : D} {stay : D → P}
    {finish : Blocking Q → Option α → Move (Blocking Q) P R} {a : Move (Blocking Q) P R}
    (ha : a ∈ tryBase q d stay finish)
    (hb : Balanced lucid n f g₀ q g (r + mr) (popPart Q d + mp)) (hk : Staged.Popping Q g d)
    (hrole : ∀ d, o.role (stay d) = r) (hpart : ∀ d, o.part (stay d) = popPart Q d)
    (hknows : ∀ h d, Staged.Popping Q h d → o.Knows h (stay d))
    (hnone : ∀ t, Balanced lucid n f g₀ t g (r + mr) (0 + mp) →
      t.gate.semaphore.count.toInt = q.gate.semaphore.count.toInt + 0 →
      Keeps lucid n f g₀ o 0 True q g mr mp (finish t none) g)
    (hsome : ∀ t v, ∃ x, finish t (some v) = .done t x ∧ o.rest x = r ∧ o.result x = gotPart f v) :
    ∃ h, Keeps lucid n f g₀ o 0 True q g mr mp a h := by
  have hsearch (d : D) : search Q d r r = r := ite_self _
  have hb' : Balanced lucid n f g₀ q g (search Q d r r + mr) (popPart Q d + mp) := by rwa [hsearch]
  obtain ⟨h, ht⟩ := tryBase_tried hb' hk Watch.shrink ha
  cases ht with
  | go le balanced clear knows =>
    refine ⟨h, .go le ?_ (Int.add_zero _).symm (fun _ => clear) (hknows h _ knows)⟩
    rw [hsearch] at balanced
    rwa [hrole, hpart]
  | none balanced blind =>
    refine ⟨g, hnone _ ?_ (Int.add_zero _).symm⟩
    rwa [zero_add]
  | some le balanced clear =>
    rename_i b v
    obtain ⟨x, hx, hrest, hresult⟩ := hsome (q.setBase b) v
    refine ⟨h, hx ▸ .done le ?_ (Int.add_zero _).symm fun _ => clear⟩
    rwa [hrest, hresult]

theorem Recheck.keeps {k : Recheck D}
    {a : Move (Blocking Q) (Recheck D) (Option (Except PopError α))}
    (hb : Balanced lucid n f g₀ q g (k.role Q + mr) (k.part Q + mp)) (hp : k.Knows Q g)
    (ha : a ∈ k.moves q) (hsee : ∀ t, a = .go t .flag → lucid → g.Clear ∨ g.ready = 0) :
    ∃ h, Keeps lucid n f g₀ (Recheck.pose Q f) 0 True q g mr mp a h := by
  cases k with
  | first d =>
    simp only [Recheck.moves] at ha
    obtain ⟨h, ht⟩ := tryBase_tried hb hp Watch.find ha
    cases ht with
    | go le balanced clear knows =>
      exact ⟨h, .go le balanced (Int.add_zero _).symm (fun _ => clear) knows⟩
    | none balanced blind =>
      obtain ⟨hw, hs⟩ := balanced
      refine ⟨g, .still_go ⟨?_, ?_⟩ (Int.add_zero _).symm trivial⟩
      · exact Watch.miss hw fun hl => (hsee _ rfl hl).elim blind id
      · exact (zero_add mp).symm ▸ hs
    | some le balanced clear =>
      exact ⟨h, .done le balanced (Int.add_zero _).symm fun _ => clear⟩
  | flag =>
    simp only [Recheck.moves] at ha
    obtain ⟨hw, hs⟩ := hb
    split at ha
    · rename_i hc
      obtain rfl := List.mem_singleton.1 ha
      refine ⟨g, .still_go ⟨?_, ?_⟩ (Int.add_zero _).symm (Staged.pop_enter g).1⟩
      · rw [hc] at hw ⊢
        exact Watch.turn_back hw
      · change Stored n f g₀ q.base g (popPart Q (Queue.popping Q) + mp)
        rw [Queue.popPart_enter g]
        exact hs
    · rename_i hc
      obtain rfl := List.mem_singleton.1 ha
      refine ⟨g, .still_done ⟨?_, hs⟩ (Int.add_zero _).symm⟩
      rw [Bool.eq_false_iff.2 hc] at hw ⊢
      exact Watch.commit hw
  | last d =>
    simp only [Recheck.moves] at ha
    exact tryBase_keeps (o := Recheck.pose Q f) ha hb hp (fun _ => rfl) (fun _ => rfl)
      (fun _ _ hk => hk) (fun _ hb hc => .still_done hb hc) fun _ _ => ⟨_, rfl, rfl, rfl⟩

theorem Sleeper.keeps {p : Sleeper α D}
    {a : Move (Blocking Q) (Sleeper α D) (Option (Except PopError α))}
    (hb : Balanced lucid n f g₀ q g (Sleeper.role Q p + mr) (Sleeper.part Q f p + mp))
    (hp : Sleeper.Knows Q g p) (ha : a ∈ p.moves recheck q)
    (hsee : ∀ t, a = .go t (.recheck .flag) → lucid → g.Clear ∨ g.ready = 0)
    (hf : Fits (q.gate.semaphore.count.toInt + sleeperAdds p)) :
    ∃ h, Keeps lucid n f g₀ (Sleeper.pose Q f) (sleeperAdds p) True q g mr mp a h := by
  cases p with
  | declare =>
    obtain rfl := List.mem_singleton.1 ha
    obtain ⟨hw, hs⟩ := hb
    refine ⟨g, .still_go ⟨?_, ?_⟩ (Int.add_zero _).symm (Staged.pop_enter g).1⟩
    · change Watch _ _ _ _ _ _ (search Q (Queue.popping Q) _ _ + mr)
      rw [search_enter g]
      exact Watch.declare hw
    · change Stored n f g₀ q.base g (popPart Q (Queue.popping Q) + mp)
      rw [Queue.popPart_enter g]
      exact hs
  | recheck k =>
    obtain ⟨b, hb', rfl⟩ := List.mem_map.1 ha
    have hsee' : ∀ t, b = .go t .flag → lucid → g.Clear ∨ g.ready = 0 := by
      rintro t rfl
      exact hsee t rfl
    obtain ⟨h, hk⟩ := Recheck.keeps hb hp hb' hsee'
    refine ⟨h, hk.embed (fun _ => rfl) (fun _ => rfl) (fun _ hk => hk) ?_ ?_ ?_ ?_⟩
    · rintro t (_ | r) <;> rfl
    · rintro t (_ | r) <;> rfl
    · rintro t (_ | r) <;> rfl
    · rintro t (_ | r) u p ⟨⟩ <;> trivial
  | retract r =>
    obtain rfl := List.mem_singleton.1 ha
    obtain ⟨hw, hs⟩ := hb
    exact ⟨g, .still_done ⟨(zero_add mr).symm ▸ Watch.leave hw, hs⟩ (Int.add_zero _).symm⟩
  | wait w =>
    obtain ⟨b, hb', rfl⟩ := List.mem_map.1 ha
    obtain ⟨hw, hs⟩ := hb
    refine ⟨g, ?_⟩
    cases Semaphore.Wait.step hb' hf with
    | pass h hc hp' =>
      rename_i s
      refine .still_go ⟨?_, hs⟩ hc trivial
      change Watch _ _ _ _ s.permits s.count.toInt _
      rw [hc, hp']
      exact Watch.pass hw h
    | sink h hc hp' =>
      rename_i s
      refine .still_go ⟨?_, hs⟩ hc trivial
      change Watch _ _ _ _ s.permits s.count.toInt _
      rw [hc, hp']
      exact Watch.sink hw h
    | acquire hc hp' =>
      rename_i s
      refine .still_go ⟨?_, hs⟩ ?_ trivial
      · change Watch _ _ _ _ s.permits s.count.toInt _
        change q.gate.semaphore.permits = _ at hp'
        rw [hp'] at hw
        rw [hc]
        exact Watch.acquire hw
      · change s.count.toInt = _
        rw [hc]
        exact (Int.add_zero _).symm
  | wake =>
    obtain rfl := List.mem_singleton.1 ha
    obtain ⟨hw, hs⟩ := hb
    exact ⟨g, .still_done ⟨Watch.wake hw, hs⟩ (Int.add_zero _).symm⟩

theorem spins_role (g : Ghost α) (k : Nat) :
    (Dequeue.spins Q k : Dequeue α D).role Q = Pi.single hungry 1 := by
  cases k with
  | zero => rfl
  | succ k => exact search_enter g _ _

theorem spins_part (g : Ghost α) (f : α → Bool) (k : Nat) :
    (Dequeue.spins Q k : Dequeue α D).part Q f = 0 := by
  cases k with
  | zero => rfl
  | succ k => exact Queue.popPart_enter g

theorem spins_knows (g : Ghost α) (k : Nat) : (Dequeue.spins Q k : Dequeue α D).Knows Q g := by
  cases k with
  | zero => trivial
  | succ k => exact (Staged.pop_enter g).1

theorem Dequeue.keeps {spins : Nat} {p : Dequeue α D}
    {a : Move (Blocking Q) (Dequeue α D) (Except PopError α)}
    (hb : Balanced lucid n f g₀ q g (p.role Q + mr) (p.part Q f + mp)) (hp : p.Knows Q g)
    (ha : a ∈ p.moves spins q)
    (hsee : ∀ t, a = .go t (.sleep (.recheck .flag)) → lucid → g.Clear ∨ g.ready = 0)
    (hf : Fits (q.gate.semaphore.count.toInt + p.adds)) :
    ∃ h, Keeps lucid n f g₀ (Dequeue.pose Q f) p.adds True q g mr mp a h := by
  cases p with
  | spin left d =>
    simp only [Dequeue.moves] at ha
    obtain ⟨h, ht⟩ := tryBase_tried hb hp (fun hw => (zero_add mr).symm ▸ Watch.feed hw) ha
    cases ht with
    | go le balanced clear knows =>
      exact ⟨h, .go le balanced (Int.add_zero _).symm (fun _ => clear) knows⟩
    | none balanced blind =>
      refine ⟨g, .still_go ?_ (Int.add_zero _).symm (spins_knows g left)⟩
      change Balanced lucid n f g₀ _ g ((Dequeue.spins Q left : Dequeue α D).role Q + mr)
        ((Dequeue.spins Q left : Dequeue α D).part Q f + mp)
      rw [spins_role g, spins_part g, zero_add]
      exact balanced
    | some le balanced clear =>
      exact ⟨h, .done le balanced (Int.add_zero _).symm fun _ => clear⟩
  | flag =>
    simp only [Dequeue.moves] at ha
    obtain ⟨hw, hs⟩ := hb
    split at ha
    · rename_i hc
      obtain rfl := List.mem_singleton.1 ha
      refine ⟨g, .still_go ⟨?_, ?_⟩ (Int.add_zero _).symm (Staged.pop_enter g).1⟩
      · change Watch _ _ _ _ _ _ (0 + mr)
        rw [hc] at hw ⊢
        rw [zero_add]
        exact Watch.give_up hw
      · change Stored n f g₀ q.base g (popPart Q (Queue.popping Q) + mp)
        rw [Queue.popPart_enter g]
        exact hs
    · obtain rfl := List.mem_singleton.1 ha
      exact ⟨g, .still_go ⟨hw, hs⟩ (Int.add_zero _).symm trivial⟩
  | drain d =>
    simp only [Dequeue.moves] at ha
    exact tryBase_keeps (o := Dequeue.pose Q f) ha hb hp (fun _ => rfl) (fun _ => rfl)
      (fun _ _ hk => hk) (fun _ hb hc => .still_done hb hc) fun _ _ => ⟨_, rfl, rfl, rfl⟩
  | sleep p =>
    obtain ⟨b, hb', rfl⟩ := List.mem_map.1 ha
    have hsee' : ∀ t, b = .go t (.recheck .flag) → lucid → g.Clear ∨ g.ready = 0 := by
      rintro t rfl
      exact hsee t rfl
    obtain ⟨h, hk⟩ := Sleeper.keeps hb hp hb' hsee' hf
    refine ⟨h, hk.embed (fun _ => rfl) (fun _ => rfl) (fun _ hk => hk) ?_ ?_ ?_ ?_⟩
    · rintro t (_ | r) <;> rfl
    · rintro t (_ | r)
      · exact spins_role h spins
      · rfl
    · rintro t (_ | r)
      · exact spins_part h f spins
      · rfl
    · rintro t (_ | r) u p ⟨⟩
      exact spins_knows h spins

theorem TryDequeue.keeps {p : TryDequeue D}
    {a : Move (Blocking Q) (TryDequeue D) (Except PopError α)}
    (hb : Balanced lucid n f g₀ q g (0 + mr) (p.part Q + mp)) (hp : p.Knows Q g) (ha : a ∈ p.moves q) :
    ∃ h, Keeps lucid n f g₀ (TryDequeue.pose Q f) 0 True q g mr mp a h := by
  cases p with
  | pop d =>
    simp only [TryDequeue.moves] at ha
    exact tryBase_keeps (o := TryDequeue.pose Q f) ha hb hp (fun _ => rfl) (fun _ => rfl)
      (fun _ _ hk => hk) (fun _ hb hc => .still_go hb hc trivial) fun _ _ => ⟨_, rfl, rfl, rfl⟩
  | verdict =>
    obtain rfl := List.mem_singleton.1 ha
    refine ⟨g, .still_done ⟨hb.awake, ?_⟩ (Int.add_zero _).symm⟩
    have := hb.stored
    cases hc : q.closed <;> simpa [hc, TryDequeue.pose, answer, TryDequeue.part] using this

end Steps

end WorkStealing.Blocking
