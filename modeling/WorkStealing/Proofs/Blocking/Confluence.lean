import WorkStealing.Proofs.Blocking.Settling

namespace WorkStealing.Blocking

open Queue (Staged pushing popping)

variable {Q α E D : Type}

inductive Errand (α : Type) where
  | enqueue (v : α)
  | tryDequeue
  | consume (n : Nat)
  | close
  deriving DecidableEq, Repr

def Errand.calls : Errand α → List (Call α)
  | .enqueue v => [.enqueue v]
  | .tryDequeue => [.tryDequeue]
  | .consume n => List.replicate n .dequeue
  | .close => [.close]

structure Shelf (α : Type) where
  items : List α
  blocked : Nat
  closed : Bool
  deriving DecidableEq, Repr

structure Turnout (α : Type) where
  shelf : Shelf α
  answer : Option (Reply α)
  results : List (Except PopError α)

/-- `room` is how many items fit, if there is a limit. -/
def Shelf.serve (room : Option Nat) (s : Shelf α) : Errand α → Turnout α
  | .enqueue v =>
    if s.closed then ⟨s, some (.pushed (.error (.closed v))), []⟩
    else if 0 < s.blocked then
      ⟨{ s with items := [], blocked := s.blocked - 1 }, some (.pushed (.ok ())), [.ok v]⟩
    else if room.all (s.items.length < ·) then
      ⟨{ s with items := s.items ++ [v] }, some (.pushed (.ok ())), []⟩
    else ⟨s, some (.pushed (.error (.full v))), []⟩
  | .tryDequeue =>
    match s.items with
    | v :: vs => ⟨{ s with items := vs }, some (.popped (.ok v)), []⟩
    | [] => ⟨s, some (.popped (.error (if s.closed then .closed else .empty))), []⟩
  | .consume n =>
    let taken := (s.items.take n).map .ok
    let missed := n - s.items.length
    if s.closed then
      ⟨{ s with items := s.items.drop n }, none, taken ++ List.replicate missed (.error .closed)⟩
    else ⟨{ s with items := s.items.drop n, blocked := s.blocked + missed }, none, taken⟩
  | .close =>
    ⟨{ s with blocked := 0, closed := true }, some .closed,
      List.replicate s.blocked (.error .closed)⟩

def shelf [Holding Q α] (k : Threads Q α E D) : Shelf α :=
  ⟨Holding.items k.state.base, k.blocked, k.state.closed⟩

/-- An errand begun where `j` was settled has come to what it should in `k`. -/
structure Serves [Holding Q α] (room : Option Nat) (j : Threads Q α E D) (op : Errand α)
    (k : Threads Q α E D) : Prop where
  settled : Settled k
  shelf : shelf k = ((shelf j).serve room op).shelf
  sleepers : k.state.gate.sleepers = k.blocked
  answer : ∀ x, ((Blocking.shelf j).serve room op).answer = some x →
    ∃ c, k.threads[j.threads.length]? = some (.finished c x)
  results : (consumed k).Perm (consumed j ++ ((Blocking.shelf j).serve room op).results)

section Lists

variable {l m : List α} {r s : Nat}

theorem drop_eq_drop (h : (l.drop r).length = (l.drop s).length) : l.drop r = l.drop s := by
  rw [List.length_drop, List.length_drop] at h
  exact List.drop_eq_drop_iff.2 (by omega)

theorem drop_eq_self (h : (l.drop r).length = l.length) : l.drop r = l :=
  drop_eq_drop (s := 0) (by simpa using h)

theorem perm_take (h : (m ++ l.drop m.length).Perm l) : m.Perm (l.take m.length) :=
  (List.perm_append_right_iff (l.drop m.length)).1 (h.trans (by rw [List.take_append_drop]))

theorem perm_values {rs : List (Except PopError α)} (h : ∀ e, .error e ∈ rs → e = .closed) :
    rs.Perm ((values rs).map .ok ++ List.replicate (rs.length - (values rs).length)
      (.error .closed)) ∧ (values rs).length ≤ rs.length := by
  induction rs with
  | nil => exact ⟨.refl _, Nat.le_refl _⟩
  | cons x xs ih =>
    obtain ⟨hperm, hle⟩ := ih fun e he => h e (List.mem_cons_of_mem x he)
    cases x with
    | ok v =>
      change (Except.ok v :: xs).Perm
        (.ok v :: _ ++ List.replicate (xs.length + 1 - ((values xs).length + 1)) _) ∧
          (values xs).length + 1 ≤ xs.length + 1
      rw [Nat.add_sub_add_right]
      exact ⟨hperm.cons _, Nat.succ_le_succ hle⟩
    | error e =>
      obtain rfl := h e List.mem_cons_self
      change (Except.error .closed :: xs).Perm
        (_ ++ List.replicate (xs.length + 1 - (values xs).length) _) ∧
          (values xs).length ≤ xs.length + 1
      rw [Nat.sub_add_comm hle, List.replicate_succ]
      exact ⟨(hperm.cons _).trans List.perm_middle.symm, Nat.le_succ_of_le hle⟩

theorem exists_error {rs : List (Except PopError α)} (h : (values rs).length < rs.length) :
    ∃ e, .error e ∈ rs := by
  by_contra hc
  have hall : ∀ x ∈ rs, (Except.toOption x).isSome := by
    intro x hx
    cases x with
    | ok v => rfl
    | error e => exact absurd ⟨e, hx⟩ hc
  have := List.length_filterMap_eq_countP (f := Except.toOption) (l := rs)
  rw [List.countP_eq_length.2 hall] at this
  exact absurd this (by rw [values] at h; omega)

end Lists

section Verdicts

variable [Queue Q α E D] {spins : Nat} {q₀ q : Blocking Q}

/-- A push on its way to what it comes to on its own. `fits` tells whether there is room. -/
def Enqueue.Course (q₀ : Blocking Q) (v : α) (fits : Bool) (q : Blocking Q) : Enqueue α E → Prop
  | .flag w => w = v ∧ q.base = q₀.base
  | .push e => q₀.closed = false ∧
      ∀ t x, Queue.push.Ends q.base e t x → x = if fits then .ok () else .error v
  | .notify _ => False

def verdict (closed fits : Bool) (v : α) : Except (PushError α) Unit :=
  if closed then .error (.closed v) else if fits then .ok () else .error (.full v)

theorem Enqueue.course_step {v : α} {fits : Bool} {p : Enqueue α E}
    {a : Move (Blocking Q) (Enqueue α E) (Except (PushError α) Unit)}
    (hbase : ∀ t x, Queue.push.Ends q₀.base (pushing Q v) t x →
      x = if fits then .ok () else .error v)
    (hc : q.closed = q₀.closed) (hp : p.Course q₀ v fits q) (ha : a ∈ p.moves q) :
    (∃ t p', a = .go t p' ∧ t.gate = q.gate ∧ t.closed = q₀.closed ∧
      (p'.Course q₀ v fits t ∨ (∃ m, p' = .notify m) ∧ verdict q₀.closed fits v = .ok ())) ∨
    ∃ t x, a = .done t x ∧ x = verdict q₀.closed fits v := by
  cases p with
  | notify m => exact hp.elim
  | flag w =>
    obtain ⟨rfl, hb⟩ := hp
    simp only [moves] at ha
    cases hclosed : q.closed <;> rw [hclosed] at ha <;> obtain rfl := List.mem_singleton.1 ha
    · rw [hclosed] at hc
      exact .inl ⟨q, _, rfl, rfl, hc ▸ hclosed, .inl ⟨hc.symm, hb ▸ hbase⟩⟩
    · rw [hclosed] at hc
      exact .inr ⟨q, _, rfl, by rw [← hc]; rfl⟩
  | push e =>
    obtain ⟨hopen, hends⟩ := hp
    obtain ⟨b, hb, rfl⟩ := List.mem_map.1 ha
    cases b with
    | go t e' => exact .inl ⟨_, _, rfl, rfl, hc, .inl ⟨hopen, fun u x hu => hends u x (.go hb hu)⟩⟩
    | done t x =>
      obtain rfl := hends t x (.done hb)
      cases fits with
      | true => exact .inl ⟨_, _, rfl, rfl, hc, .inr ⟨⟨_, rfl⟩, by rw [hopen]; rfl⟩⟩
      | false => exact .inr ⟨_, _, rfl, by rw [hopen]; rfl⟩

def TryDequeue.Course (first : Option α) (q : Blocking Q) : TryDequeue D → Prop
  | .pop d => ∀ t x, Queue.pop.Ends q.base d t x → x = first
  | .verdict => first = none

def tryVerdict (closed : Bool) : Option α → Except PopError α
  | some v => .ok v
  | none => .error (if closed then .closed else .empty)

theorem TryDequeue.course_step {first : Option α} {p : TryDequeue D}
    {a : Move (Blocking Q) (TryDequeue D) (Except PopError α)} (hp : p.Course first q)
    (ha : a ∈ p.moves q) :
    (∃ t p', a = .go t p' ∧ t.gate = q.gate ∧ t.closed = q.closed ∧ p'.Course first t) ∨
    ∃ t x, a = .done t x ∧ x = tryVerdict q.closed first := by
  cases TryDequeue.step ha with
  | look h => exact .inl ⟨_, _, rfl, rfl, rfl, fun t x he => hp t x (.go h he)⟩
  | miss h => exact .inl ⟨_, _, rfl, rfl, rfl, (hp _ _ (.done h)).symm⟩
  | find h => exact .inr ⟨_, _, rfl, by rw [← hp _ _ (.done h)]; rfl⟩
  | up hc => exact .inr ⟨_, _, rfl, by rw [(hp : first = none), hc]; rfl⟩
  | down hc => exact .inr ⟨_, _, rfl, by rw [(hp : first = none), hc]; rfl⟩

variable {j k : Threads Q α E D} {recent : Log Q α}

theorem Settled.stuck (hs : Settled j) (hg : q.gate = j.state.gate) {d : Call α} {p : Point α E D}
    (ht : .running d p ∈ j.threads) : p.moves spins q = [] := by
  obtain ⟨-, rfl, hp⟩ := hs d p ht
  rw [← hg] at hp
  change List.map _ (List.map _ (List.map _ _)) = []
  simp [Semaphore.Wait.moves, Gated.gate, hp]

theorem enqueue_verdict {v : α} {fits : Bool} (hs : Settled j)
    (hbase : ∀ t x, Queue.push.Ends j.state.base (pushing Q v) t x →
      x = if fits then .ok () else .error v)
    (h : Crew.Run (calls spins) (fun _ _ => False) (j.start (calls spins) (.enqueue v)) recent k)
    (hk : Settled k) : k.threads[j.threads.length]? =
      some (.finished (.enqueue v) (.pushed (verdict j.state.closed fits v))) := by
  refine (h.solo (I := fun q p => q.gate = j.state.gate ∧ q.closed = j.state.closed ∧
      ∃ e, p = .enqueue e ∧ e.Course j.state v fits q)
    (J := fun p => (∃ m, p = .enqueue (.notify m)) ∧ verdict j.state.closed fits v = .ok ())
    (G := fun x => x = .pushed (verdict j.state.closed fits v)) ?_ ?_ ?_ ?_).elim ?_ ?_
  · rintro q p ⟨hg, -⟩ d p' ht
    exact hs.stuck hg ht
  · rintro q _ a ⟨hg, hc, e, rfl, he⟩ ha
    obtain ⟨b, hb, rfl⟩ := List.mem_map.1 ha
    rcases Enqueue.course_step hbase hc he hb with
      ⟨t, e', rfl, hgt, hct, he' | ⟨⟨m, rfl⟩, hok⟩⟩ | ⟨t, x, rfl, hx⟩
    · exact .inl ⟨t, _, rfl, .inl ⟨hgt.trans hg, hct, e', rfl, he'⟩⟩
    · exact .inl ⟨t, _, rfl, .inr ⟨⟨m, rfl⟩, hok⟩⟩
    · exact .inr ⟨t, _, rfl, by rw [hx]⟩
  · rintro q _ a ⟨⟨m, rfl⟩, hok⟩ ha
    obtain ⟨b, hb, rfl⟩ := List.mem_map.1 ha
    simp only [Enqueue.moves] at hb
    rcases mem_notify hb with ⟨g, m', rfl⟩ | ⟨g, n, rfl⟩
    · exact .inl ⟨_, _, rfl, ⟨m', rfl⟩, hok⟩
    · exact .inr ⟨_, _, rfl, by rw [hok]⟩
  · exact ⟨rfl, rfl, _, rfl, rfl, rfl⟩
  · rintro ⟨p, hp⟩
    exact absurd (hk _ p (List.mem_of_getElem? hp)).1 (by simp)
  · rintro ⟨x, hx, rfl⟩
    exact hx

theorem tryDequeue_verdict {first : Option α} (hs : Settled j)
    (hbase : ∀ t x, Queue.pop.Ends j.state.base (popping Q) t x → x = first)
    (h : Crew.Run (calls spins) (fun _ _ => False) (j.start (calls spins) .tryDequeue) recent k)
    (hk : Settled k) : k.threads[j.threads.length]? =
      some (.finished .tryDequeue (.popped (tryVerdict j.state.closed first))) := by
  refine (h.solo (I := fun q p => q.gate = j.state.gate ∧ q.closed = j.state.closed ∧
      ∃ d, p = .tryDequeue d ∧ d.Course first q)
    (J := fun _ => False)
    (G := fun x => x = .popped (tryVerdict j.state.closed first)) ?_ ?_ ?_ ?_).elim ?_ ?_
  · rintro q p ⟨hg, -⟩ d p' ht
    exact hs.stuck hg ht
  · rintro q _ a ⟨hg, hc, d, rfl, hd⟩ ha
    obtain ⟨b, hb, rfl⟩ := List.mem_map.1 ha
    rcases TryDequeue.course_step hd hb with ⟨t, d', rfl, hgt, hct, hd'⟩ | ⟨t, x, rfl, hx⟩
    · exact .inl ⟨t, _, rfl, .inl ⟨hgt.trans hg, hct.trans hc, d', rfl, hd'⟩⟩
    · exact .inr ⟨t, _, rfl, by rw [hx, hc]⟩
  · exact fun _ _ _ hj => hj.elim
  · exact ⟨rfl, rfl, _, rfl, hbase⟩
  · rintro ⟨p, hp⟩
    exact absurd (hk _ p (List.mem_of_getElem? hp)).1 (by simp)
  · rintro ⟨x, hx, rfl⟩
    exact hx

end Verdicts

/-- What has changed from one settled state to another: `ws` are the threads that have joined, `rest`
is what consumers have come back with since, and `n` how many of them have joined. -/
structure Exchange [Holding Q α] (j k : Threads Q α E D) (n : Nat) (ws : List (Caller α E D))
    (rest : List (Except PopError α)) : Prop where
  before : AtRest j
  after : AtRest k
  threads : ∃ us, k.threads = us ++ ws ∧ us.length = j.threads.length
  consumed : (consumed k).Perm (consumed j ++ rest)
  count : rest.length + k.blocked = j.blocked + n
  items : ∃ more r, Holding.items k.state.base = (Holding.items j.state.base ++ more).drop r ∧
    more.length = (ws.filterMap accepted?).length
  perm : (ws.filterMap accepted? ++ Holding.items j.state.base).Perm
    (values rest ++ values (ws.filterMap tried?) ++ Holding.items k.state.base)
  closed : k.state.closed = true ↔ j.state.closed = true ∨ ∃ w ∈ ws, isClose w

section Counts

variable [Holding Q α] {j k : Threads Q α E D}

theorem AtRest.closed_of_isClose (hk : AtRest k) {t : Caller α E D} (ht : t ∈ k.threads)
    (hc : isClose t = true) : k.state.closed = true := by
  refine hk.shut.told t ht ?_
  have hproper := hk.proper t ht
  rw [isClose_iff] at hc
  rcases hk.settled.cases ht with ⟨c, r, rfl⟩ | rfl
  · obtain rfl : c = .close := hc
    cases r <;> first | exact hproper.elim | trivial
  · cases hc

theorem AtRest.blocked_eq_zero (hk : AtRest k) (hc : k.state.closed = true) : k.blocked = 0 := by
  by_contra hn
  have := (hk.waiting (Nat.pos_of_ne_zero hn)).2
  rw [hc] at this
  cases this

theorem AtRest.perm {ins : List α} {outs rest : List (Except PopError α)} (hj : AtRest j)
    (hk : AtRest k) (hins : accepted k = accepted j ++ ins) (houts : tried k = tried j ++ outs)
    (hrest : (consumed k).Perm (consumed j ++ rest)) :
    (ins ++ Holding.items j.state.base).Perm
      (values rest ++ values outs ++ Holding.items k.state.base) := by
  refine perm_of_countP fun f => ?_
  have h1 := hj.accounted.countP_eq f
  have h2 := hk.accounted.countP_eq f
  have h3 := countP_returned hj.proper f
  have h4 := countP_returned hk.proper f
  have h5 := (hrest.filterMap Except.toOption).countP_eq f
  rw [List.filterMap_append, List.countP_append] at h5
  rw [hins] at h2
  rw [houts] at h4
  simp only [values, List.filterMap_append, List.countP_append] at *
  omega

end Counts

section Runs

variable [Queue Q α E D] {spins n : Nat} {room : Option Nat} {b : Q} {older recent : Log Q α}
  {j k : Threads Q α E D} {op : Errand α}

theorem Settled.run_begin (hs : Settled j) (op : Errand α) :
    Crew.Run (calls spins) Driver j [] (op.calls.foldl (Crew.start (calls spins)) j) := by
  have hdriver (c : Call α) : Driver j c := .inr fun d p ht => (hs d p ht).1
  cases op with
  | enqueue v => exact Crew.Run.refl.start _ (hdriver _)
  | tryDequeue => exact Crew.Run.refl.start _ (hdriver _)
  | close => exact Crew.Run.refl.start _ (hdriver _)
  | consume n => exact Crew.Run.refl.start_all fun _ c hc => .inl (List.mem_replicate.1 hc).2

theorem consumed_sublist (h : Crew.Run (calls spins) (fun _ _ => False)
    (op.calls.foldl (Crew.start (calls spins)) j) recent k) :
    (consumed j).Sublist (consumed k) := by
  have hsub := h.sublist_filterMap consumed? fun s c p a x _ hx => nomatch hx
  rw [Crew.foldl_start, List.filterMap_append] at hsub
  exact (List.sublist_append_left _ _).trans hsub

variable [Holding Q α] [Staged Q α E D]

theorem exchange_of_run (hplain : Queue.Plain Q n room)
    (hb : Staged.Tracks n b (Ghost.start : Ghost α) 0)
    (hj : Crew.Run (calls spins) Driver ⟨⟨b, {}, false⟩, []⟩ older j) (hs : Settled j)
    (hk : Crew.Run (calls spins) (fun _ _ => False)
      (op.calls.foldl (Crew.start (calls spins)) j) recent k)
    (hq : Crew.Quiet (calls spins) k) (hx : Exact (recent ++ older))
    (hwrap : Staged.Wraps Q → offers k < 2 ^ 63) :
    ∃ ws rest, List.Forall₂ Thread.Later
        (op.calls.map fun c => .running c (c.enter Q spins)) ws ∧
      Exchange j k (op.calls.countP Call.isDequeue) ws rest := by
  have hrun : Crew.Run (calls spins) Driver j recent k := by
    have := (hs.run_begin op).append (hk.mono fun _ _ => False.elim)
    rwa [List.append_nil] at this
  have hall := hj.append hrun
  have hrestj : AtRest j := atRest_of_run hplain hb hj (hx.suffix (List.suffix_append _ _))
    (fun hw => (offers_le hrun).trans_lt (hwrap hw)) hs.quiet
  have hrestk : AtRest k := atRest_of_run hplain hb hall hx hwrap hq
  -- the threads there were, and those that have joined
  have hlater := hk.later
  rw [Crew.foldl_start] at hlater
  have htake := List.forall₂_take j.threads.length hlater
  have hdrop := List.forall₂_drop j.threads.length hlater
  rw [List.take_left] at htake
  rw [List.drop_left] at hdrop
  have hsplit : k.threads.take j.threads.length ++ k.threads.drop j.threads.length = k.threads :=
    List.take_append_drop _ _
  generalize k.threads.take j.threads.length = us at htake hsplit
  generalize k.threads.drop j.threads.length = ws at hdrop hsplit
  have hkeep {X : Type} (F : Caller α E D → Option X) (hF : ∀ t, t.call = .dequeue → F t = none) :
      k.threads.filterMap F = j.threads.filterMap F ++ ws.filterMap F := by
    rw [← hsplit, List.filterMap_append,
      Thread.Later.filterMap_eq htake fun c p ht u hu => hF u (hu.trans (hs c p ht).1)]
  have hins : accepted k = accepted j ++ ws.filterMap accepted? :=
    hkeep accepted? fun _ => accepted?_eq_none
  have houts : tried k = tried j ++ ws.filterMap tried? := hkeep tried? fun _ => tried?_eq_none
  obtain ⟨rest, hrest⟩ := (consumed_sublist hk).exists_perm_append
  obtain ⟨more, r, hitems, hmore⟩ := items_of_run hplain hb hj hs hrun hrestk.settled hx hwrap
  have hcount : k.threads.countP (fun t => t.call.isDequeue) =
      j.threads.countP (fun t => t.call.isDequeue) + op.calls.countP Call.isDequeue := by
    rw [Thread.Later.countP_eq hk.later, Crew.foldl_start, List.countP_append, List.countP_map]
    rfl
  rw [countP_dequeue hrestk.settled hrestk.proper, countP_dequeue hs hrestj.proper,
    hrest.length_eq, List.length_append] at hcount
  refine ⟨ws, rest, hdrop, hrestj, hrestk, ⟨us, hsplit.symm, htake.length_eq.symm⟩, hrest,
    by omega, ⟨more, r, hitems, ?_⟩, hrestj.perm hrestk hins houts hrest, ?_⟩
  · rw [hins, List.length_append] at hmore
    omega
  · refine ⟨fun hc => ?_, ?_⟩
    · obtain ⟨t, ht, hct⟩ := hrestk.shut.asked hc
      rw [← hsplit] at ht
      rcases List.mem_append.1 ht with ht | ht
      · obtain ⟨u, hu, hlate⟩ := Thread.Later.exists_mem htake ht
        rw [isClose_iff, hlate.call_eq, ← isClose_iff] at hct
        exact .inl (hrestj.closed_of_isClose hu hct)
      · exact .inr ⟨t, ht, hct⟩
    · rintro (hc | ⟨w, hw, hcw⟩)
      · exact closed_of_run hc hrun
      · exact hrestk.closed_of_isClose (hsplit ▸ List.mem_append_right us hw) hcw

end Runs

section Cases

variable [Holding Q α] {j k : Threads Q α E D} {n : Nat} {w : Caller α E D}
  {ws : List (Caller α E D)} {rest : List (Except PopError α)} {room : Option Nat}

namespace Exchange

theorem mem_consumed (h : Exchange j k n ws rest) {x : Except PopError α} (hx : x ∈ rest) :
    x ∈ Blocking.consumed k := h.consumed.mem_iff.2 (List.mem_append_right _ hx)

theorem values_perm (h : Exchange j k n ws rest) :
    rest.Perm ((values rest).map .ok ++ List.replicate (rest.length - (values rest).length)
      (.error .closed)) ∧ (values rest).length ≤ rest.length :=
  perm_values fun e he => (h.after.told e (h.mem_consumed he)).1

theorem dismissed (h : Exchange j k n ws rest) (hlt : (values rest).length < rest.length) :
    k.state.closed = true ∧ Holding.items k.state.base = [] := by
  obtain ⟨e, he⟩ := exists_error hlt
  exact (h.after.told e (h.mem_consumed he)).2

theorem getElem? (h : Exchange j k n [w] rest) : k.threads[j.threads.length]? = some w := by
  obtain ⟨us, hus, hlen⟩ := h.threads
  simp [hus, ← hlen]

theorem taken (h : Exchange j k n ws rest) (hin : ws.filterMap accepted? = [])
    (hout : values (ws.filterMap tried?) = []) :
    (values rest).Perm ((Holding.items j.state.base).take (values rest).length) ∧
      Holding.items k.state.base = (Holding.items j.state.base).drop (values rest).length ∧
      (values rest).length ≤ (Holding.items j.state.base).length := by
  obtain ⟨more, r, hitems, hmore⟩ := h.items
  have hperm := h.perm
  rw [hin, List.length_nil, List.length_eq_zero_iff] at hmore
  rw [hmore, List.append_nil] at hitems
  rw [hin, hout, List.nil_append, List.append_nil] at hperm
  have hlen := hperm.length_eq
  rw [List.length_append] at hlen
  have hdrop : Holding.items k.state.base =
      (Holding.items j.state.base).drop (values rest).length := by
    rw [hitems]
    exact drop_eq_drop (by rw [← hitems, List.length_drop]; omega)
  refine ⟨perm_take ?_, hdrop, by omega⟩
  rw [← hdrop]
  exact hperm.symm

theorem lengths (h : Exchange j k n ws rest) :
    (0 < j.blocked → (Holding.items j.state.base).length = 0) ∧
      (0 < k.blocked → (Holding.items k.state.base).length = 0) ∧
      ((values rest).length < rest.length → (Holding.items k.state.base).length = 0) :=
  ⟨fun hpos => by rw [(h.before.waiting hpos).1, List.length_nil],
    fun hpos => by rw [(h.after.waiting hpos).1, List.length_nil],
    fun hlt => by rw [(h.dismissed hlt).2, List.length_nil]⟩

theorem length_values (h : Exchange j k n ws rest) (hopen : k.state.closed = false) :
    rest.length = (values rest).length := by
  refine Nat.le_antisymm (Nat.not_lt.1 fun hlt => ?_) h.values_perm.2
  have := (h.dismissed hlt).1
  rw [hopen] at this
  cases this

theorem closed_eq (h : Exchange j k n ws rest) (hws : ∀ w ∈ ws, w.call ≠ .close) :
    k.state.closed = j.state.closed := by
  refine Bool.eq_iff_iff.2 (h.closed.trans (or_iff_left ?_))
  rintro ⟨w, hw, hc⟩
  exact hws w hw (isClose_iff.1 hc)

theorem consume (h : Exchange j k n ws rest) (hws : ∀ w ∈ ws, w.call = .dequeue) :
    Serves room j (.consume n) k := by
  have hnone {X : Type} {F : Caller α E D → Option X} (hF : ∀ t, t.call = .dequeue → F t = none) :
      ws.filterMap F = [] := List.filterMap_eq_nil_iff.2 fun w hw => hF w (hws w hw)
  obtain ⟨hperm, hitems, hle⟩ := h.taken (hnone fun _ => accepted?_eq_none)
    (congrArg values (hnone fun _ => tried?_eq_none))
  obtain ⟨hvalues, hle'⟩ := h.values_perm
  have hcount := h.count
  obtain ⟨hj, hk, hr⟩ := h.lengths
  have hlen : (Holding.items k.state.base).length =
      (Holding.items j.state.base).length - (values rest).length := by rw [hitems, List.length_drop]
  have hclosed := h.closed_eq fun w hw => by rw [hws w hw]; simp
  obtain ⟨hmin, hblocked, hmissed⟩ :
      (values rest).length = min n (Holding.items j.state.base).length ∧
      k.blocked = (if j.state.closed then j.blocked else
        j.blocked + (n - (Holding.items j.state.base).length)) ∧
      rest.length - (values rest).length =
        if j.state.closed then n - (Holding.items j.state.base).length else 0 := by
    cases hc : j.state.closed with
    | false =>
      have := h.length_values (hclosed.trans hc)
      simp only [Bool.false_eq_true, if_false]
      omega
    | true =>
      have := h.before.blocked_eq_zero hc
      have := h.after.blocked_eq_zero (hclosed.trans hc)
      simp only [if_true]
      omega
  have hdrop : Holding.items k.state.base = (Holding.items j.state.base).drop n := by
    rw [hitems]
    exact drop_eq_drop (by rw [List.length_drop, List.length_drop]; omega)
  have htake : (values rest).Perm ((Holding.items j.state.base).take n) := by
    rwa [List.take_eq_take_iff.2 (by omega : _ = min n _)] at hperm
  rw [hmissed] at hvalues
  have hresults := h.consumed.trans ((hvalues.trans ((htake.map _).append_right _)).append_left _)
  refine ⟨h.after.settled, ?_, h.after.sleepers, fun x hx => ?_, ?_⟩ <;>
    cases hc : j.state.closed <;> simp_all [Shelf.serve, Blocking.shelf]

theorem serves {c : Call α} {x : Reply α} {op : Errand α}
    (h : Exchange j k 0 [.finished c x] rest)
    (hshelf : Blocking.shelf k = ((Blocking.shelf j).serve room op).shelf)
    (hanswer : ((Blocking.shelf j).serve room op).answer = some x)
    (hresults : rest.Perm ((Blocking.shelf j).serve room op).results) : Serves room j op k := by
  refine ⟨h.after.settled, hshelf, h.after.sleepers, fun y hy => ⟨c, ?_⟩,
    h.consumed.trans (hresults.append_left _)⟩
  rw [h.getElem?, Option.some.inj (hanswer.symm.trans hy)]

theorem still {c : Call α} {x : Reply α} (h : Exchange j k 0 [.finished c x] rest)
    (hc : c ≠ .close) (hin : accepted? (.finished c x : Caller α E D) = none)
    (hout : values ([(.finished c x : Caller α E D)].filterMap tried?) = [])
    (hnone : values rest = []) : Blocking.shelf k = Blocking.shelf j ∧ rest = [] := by
  obtain ⟨-, hitems, -⟩ := h.taken (by simp [hin]) hout
  have hclosed := h.closed_eq fun w hw => by rw [List.mem_singleton.1 hw]; exact hc
  have hcount := h.count
  rw [hnone, List.length_nil, List.drop_zero] at hitems
  have hrest : rest.length = 0 := by
    cases hj : j.state.closed with
    | true =>
      have := h.before.blocked_eq_zero hj
      omega
    | false => rw [h.length_values (hclosed.trans hj), hnone, List.length_nil]
  refine ⟨?_, List.length_eq_zero_iff.1 hrest⟩
  rw [Blocking.shelf, Blocking.shelf, hitems, hclosed, show k.blocked = j.blocked by omega]

theorem close (h : Exchange j k 0 [.finished .close .closed] rest) : Serves room j .close k := by
  obtain ⟨-, hitems, hle⟩ := h.taken rfl rfl
  obtain ⟨hvalues, hle'⟩ := h.values_perm
  have hcount := h.count
  have hj := h.lengths.1
  have hclosed : k.state.closed = true := h.closed.2 (.inr ⟨_, List.mem_singleton_self _, rfl⟩)
  have hblocked := h.after.blocked_eq_zero hclosed
  have hnone : values rest = [] := List.length_eq_zero_iff.1 (by omega)
  rw [hnone, List.length_nil] at hitems hvalues
  rw [show rest.length - 0 = j.blocked by omega] at hvalues
  refine h.serves ?_ rfl hvalues
  simp [Shelf.serve, Blocking.shelf, hitems, hblocked, hclosed]

theorem tryDequeue (h : Exchange j k 0 [.finished .tryDequeue
    (.popped (tryVerdict j.state.closed (Holding.items j.state.base).head?))] rest) :
    Serves room j .tryDequeue k := by
  cases hitems : Holding.items j.state.base with
  | nil =>
    rw [hitems, List.head?_nil, tryVerdict] at h
    have hle := (h.taken rfl rfl).2.2
    rw [hitems, List.length_nil, Nat.le_zero, List.length_eq_zero_iff] at hle
    obtain ⟨hshelf, rfl⟩ := h.still (by simp) rfl rfl hle
    refine h.serves ?_ ?_ ?_
    · rw [hshelf]
      simp [Shelf.serve, Blocking.shelf, hitems]
    · simp [Shelf.serve, Blocking.shelf, hitems]
    · simp [Shelf.serve, Blocking.shelf, hitems]
  | cons v vs =>
    rw [hitems, List.head?_cons, tryVerdict] at h
    -- somebody was blocked only if there was nothing to take
    have hj : j.blocked = 0 := by
      have := h.lengths.1
      simp only [hitems, List.length_cons] at this
      omega
    have hcount := h.count
    obtain rfl : rest = [] := List.length_eq_zero_iff.1 (by omega)
    have hclosed := h.closed_eq fun w hw => by rw [List.mem_singleton.1 hw]; simp [Thread.call]
    have hperm : (v :: vs).Perm (v :: Holding.items k.state.base) := hitems ▸ h.perm
    have hleft : Holding.items k.state.base = vs := by
      obtain ⟨more, r, hk, hmore⟩ := h.items
      obtain rfl : more = [] := List.length_eq_zero_iff.1 hmore
      rw [hitems, List.append_nil] at hk
      rw [hk]
      refine drop_eq_drop (s := 1) ?_
      rw [← hk]
      exact hperm.cons_inv.symm.length_eq
    refine h.serves ?_ ?_ ?_
    · simp [Shelf.serve, Blocking.shelf, hitems, hleft, hclosed]
      omega
    · simp [Shelf.serve, Blocking.shelf, hitems]
    · simp [Shelf.serve, Blocking.shelf, hitems]

theorem pushed {v : α} (h : Exchange j k 0 [.finished (.enqueue v) (.pushed (.ok ()))] rest)
    (hopen : j.state.closed = false) : if 0 < j.blocked
      then Holding.items k.state.base = [] ∧ k.blocked = j.blocked - 1 ∧ rest = [.ok v]
      else Holding.items k.state.base = Holding.items j.state.base ++ [v] ∧ k.blocked = 0 ∧
        rest = [] := by
  have hclosed := h.closed_eq fun w hw => by rw [List.mem_singleton.1 hw]; simp [Thread.call]
  have hvalues := h.length_values (hclosed.trans hopen)
  have hcount := h.count
  have hk := h.lengths.2.1
  have hperm : (v :: Holding.items j.state.base).Perm
      (values rest ++ [] ++ Holding.items k.state.base) := h.perm
  rw [List.append_nil] at hperm
  have hlen := hperm.length_eq
  rw [List.length_cons, List.length_append] at hlen
  split
  · rename_i hpos
    rw [(h.before.waiting hpos).1] at hperm hlen
    rw [List.length_nil] at hlen
    have hnil : Holding.items k.state.base = [] := List.length_eq_zero_iff.1 (by omega)
    rw [hnil, List.append_nil] at hperm
    refine ⟨hnil, by omega, ?_⟩
    have hrest := h.values_perm.1
    rw [← hvalues, Nat.sub_self, List.replicate_zero, List.append_nil,
      List.perm_singleton.1 hperm.symm] at hrest
    exact List.perm_singleton.1 hrest
  · obtain rfl : rest = [] := List.length_eq_zero_iff.1 (by omega)
    refine ⟨?_, by omega, rfl⟩
    obtain ⟨more, r, hleft, hmore⟩ := h.items
    obtain ⟨m, rfl⟩ := List.length_eq_one_iff.1 hmore
    have hitems : Holding.items k.state.base = Holding.items j.state.base ++ [m] := by
      rw [hleft]
      refine drop_eq_self ?_
      rw [← hleft, List.length_append]
      change _ = 0 + _ at hlen
      rw [List.length_singleton]
      omega
    rw [hitems] at hperm
    have hv : (v :: Holding.items j.state.base).Perm (m :: Holding.items j.state.base) :=
      hperm.trans (List.perm_append_singleton m _)
    have : [v].Perm [m] := (List.perm_append_right_iff (Holding.items j.state.base)).1 hv
    rw [hitems, List.singleton_perm_singleton.1 this]

theorem enqueue {v : α} (hroom : room.all (0 < ·)) (h : Exchange j k 0
    [.finished (.enqueue v) (.pushed (verdict j.state.closed
      (room.all ((Holding.items j.state.base).length < ·)) v))] rest) :
    Serves room j (.enqueue v) k := by
  have hclosed := h.closed_eq fun w hw => by rw [List.mem_singleton.1 hw]; simp [Thread.call]
  have hcount := h.count
  cases hc : j.state.closed with
  | true =>
    have hj := h.before.blocked_eq_zero hc
    obtain rfl : rest = [] := List.length_eq_zero_iff.1 (by omega)
    rw [hc, verdict, if_pos rfl] at h
    obtain ⟨hshelf, -⟩ := h.still (by simp) rfl rfl rfl
    refine h.serves ?_ ?_ ?_ <;> simp [Shelf.serve, hshelf]
    all_goals simp [Blocking.shelf, hc]
  | false =>
    rw [hc, verdict, if_neg Bool.false_ne_true] at h
    cases hfits : room.all ((Holding.items j.state.base).length < ·) with
    | true =>
      rw [hfits, if_pos rfl] at h
      have hpushed := h.pushed hc
      by_cases hpos : 0 < j.blocked
      · obtain ⟨hitems, hblocked, rfl⟩ := if_pos hpos ▸ hpushed
        refine h.serves ?_ ?_ ?_ <;>
          simp [Shelf.serve, Blocking.shelf, hc, hpos, hitems, hblocked, hclosed]
      · obtain ⟨hitems, hblocked, rfl⟩ := if_neg hpos ▸ hpushed
        have hj : j.blocked = 0 := by omega
        refine h.serves ?_ ?_ ?_ <;>
          simp [Shelf.serve, Blocking.shelf, hc, hj, hitems, hblocked, hclosed, hfits]
    | false =>
      -- a queue for which somebody waits has room
      have hj : j.blocked = 0 := by
        by_contra hpos
        rw [(h.before.waiting (Nat.pos_of_ne_zero hpos)).1, List.length_nil, hroom] at hfits
        cases hfits
      obtain rfl : rest = [] := List.length_eq_zero_iff.1 (by omega)
      rw [hfits, if_neg Bool.false_ne_true] at h
      obtain ⟨hshelf, -⟩ := h.still (by simp) rfl rfl rfl
      refine h.serves ?_ ?_ ?_ <;> simp [Shelf.serve, hshelf]
      all_goals simp [Blocking.shelf, hc, hj, hfits]

end Exchange

end Cases

/-- However the steps of an errand begun at rest are interleaved, with those of any number of
consumers, they come to the same once nobody can move. -/
def Confluent [Queue Q α E D] [Holding Q α] [Staged Q α E D] (spins : Nat) (room : Option Nat)
    (b : Q) : Prop :=
  ∀ older j op recent k, Crew.Run (calls spins) Driver ⟨⟨b, {}, false⟩, []⟩ older j → Settled j →
    Crew.Run (calls spins) (fun _ _ => False) (op.calls.foldl (Crew.start (calls spins)) j) recent k →
    Crew.Quiet (calls spins) k → Exact (recent ++ older) → (Staged.Wraps Q → offers k < 2 ^ 63) →
    Serves room j op k

theorem confluent_of_plain [Queue Q α E D] [Holding Q α] [Staged Q α E D] {spins n : Nat}
    {room : Option Nat} {b : Q} (hplain : Queue.Plain Q n room) (hroom : room.all (0 < ·))
    (hb : Staged.Tracks n b (Ghost.start : Ghost α) 0) : Confluent spins room b := by
  intro older j op recent k hj hs hk hq hx hwrap
  obtain ⟨ws, rest, hlater, h⟩ := exchange_of_run hplain hb hj hs hk hq hx hwrap
  have hone (hn : op.calls.length = 1) : ∃ w, ws = [w] := by
    rw [← List.length_eq_one_iff, ← hlater.length_eq, List.length_map, hn]
  have hcall : ∀ w ∈ ws, w.call ∈ op.calls := fun w hw => by
    obtain ⟨t, ht, hl⟩ := Thread.Later.exists_mem hlater hw
    obtain ⟨d, hd, rfl⟩ := List.mem_map.1 ht
    exact hl.call_eq ▸ hd
  have hfew : Staged.Wraps Q → offers j < 2 ^ 63 := fun hw => by
    have hrun := (hs.run_begin op).append (hk.mono fun _ _ => False.elim)
    exact (offers_le hrun).trans_lt (hwrap hw)
  obtain ⟨g, m, ht, hm⟩ := tracks_of_run hb hj (hx.suffix (List.suffix_append _ _)) hfew hs
  cases op with
  | enqueue v =>
    obtain ⟨w, rfl⟩ := hone rfl
    obtain rfl := Option.some.inj (h.getElem?.symm.trans
      (enqueue_verdict hs (fun _ _ => hplain.push ht hm) hk h.after.settled))
    exact h.enqueue hroom
  | tryDequeue =>
    obtain ⟨w, rfl⟩ := hone rfl
    obtain rfl := Option.some.inj (h.getElem?.symm.trans
      (tryDequeue_verdict hs (fun _ _ => hplain.pop ht hm) hk h.after.settled))
    exact h.tryDequeue
  | consume c =>
    rw [Errand.calls, List.countP_replicate, Call.isDequeue, if_pos rfl] at h
    exact h.consume fun w hw => (List.mem_replicate.1 (hcall w hw)).2
  | close =>
    obtain ⟨w, rfl⟩ := hone rfl
    have hmem := List.mem_of_getElem? h.getElem?
    have hclose : w.call = .close := List.mem_singleton.1 (hcall w (List.mem_singleton_self w))
    obtain rfl : w = .finished .close .closed := by
      have hproper := h.after.proper w hmem
      rcases h.after.settled.cases hmem with ⟨d, r, rfl⟩ | rfl
      · obtain rfl : d = .close := hclose
        cases r <;> first | rfl | exact hproper.elim
      · cases hclose
    exact h.close

theorem settling_confluent {spins : Nat} :
    (∀ capacity slotSize (r : Ring α), Ring.new capacity slotSize = .ok r →
      Confluent spins (some capacity.toNat) r) ∧ Confluent spins none ({} : Linked α) := by
  refine ⟨fun capacity slotSize r hr => ?_, ?_⟩
  · have ht := Ring.tracks_start hr
    have h2 := ht.shaped.two_le
    exact confluent_of_plain (Ring.plain _) (by simp; omega) ht
  · exact confluent_of_plain (Linked.plain 0) rfl Linked.tracks_start

def Handed [Queue Q α E D] [Holding Q α] [Staged Q α E D] (room : Option Nat) (b : Q)
    (op : Errand α) (outs : List (Except PopError α)) : Prop :=
  ∃ older j recent k, Crew.Run (calls 0) Driver ⟨⟨b, {}, false⟩, []⟩ older j ∧ Settled j ∧
    j.blocked = 1 ∧
    Crew.Run (calls 0) (fun _ _ => False) (op.calls.foldl (Crew.start (calls 0)) j) recent k ∧
    Crew.Quiet (calls 0) k ∧ Exact (recent ++ older) ∧ consumed k = outs ∧ Serves room j op k

theorem handed_of_play [Queue Q α E D] [Holding Q α] [Staged Q α E D] {room : Option Nat} {b : Q}
    (hc : Confluent 0 room b) (op : Errand α) (before after : List (Crew.Cue (Call α)))
    {outs : List (Except PopError α)}
    (h : ((Crew.play (calls 0) driver before [] ⟨⟨b, {}, false⟩, []⟩).bind fun y =>
      (Crew.play (calls 0) (fun _ _ => false) after []
        (op.calls.foldl (Crew.start (calls 0)) y.2)).map fun x =>
          (consumed x.2, settled y.2 && decide (y.2.blocked = 1) && x.2.isQuiet (calls 0) &&
            decide (Exact (x.1 ++ y.1)) && decide (offers x.2 < 2 ^ 63))) = some (outs, true)) :
    Handed room b op outs := by
  obtain ⟨⟨older, j⟩, hp, h⟩ := Option.bind_eq_some_iff.1 h
  obtain ⟨⟨recent, k⟩, hp', hx⟩ := Option.map_eq_some_iff.1 h
  simp only [Prod.mk.injEq, Bool.and_eq_true, decide_eq_true_eq] at hx
  obtain ⟨houts, ⟨⟨⟨hs, hone⟩, hq⟩, hexact⟩, hfew⟩ := hx
  have hj := Crew.run_play driver_of .refl hp
  have hk := Crew.run_play (fun _ _ => Bool.false_ne_true) .refl hp'
  exact ⟨older, j, recent, k, hj, settled_of j hs, hone, hk, Crew.isQuiet_iff.1 hq, hexact, houts,
    hc older j op recent k hj (settled_of j hs) hk (Crew.isQuiet_iff.1 hq) hexact fun _ => hfew⟩

/-- A consumer goes to sleep; a push wakes it and hands it the value. -/
theorem settling_confluent_handover : Handed (some 2) Ring.pair (.enqueue 7) [.ok 7] ∧
    Handed none ({} : Linked Nat) (.enqueue 7) [.ok 7] := by
  have hn : Ring.new 2 none = .ok Ring.pair := by rfl
  exact ⟨handed_of_play (settling_confluent.1 2 none Ring.pair hn) (.enqueue 7)
      (.start .dequeue :: steps 0 6) (steps 1 9 ++ steps 0 10) (by rfl),
    handed_of_play settling_confluent.2 (.enqueue 7) (.start .dequeue :: steps 0 5)
      (steps 1 6 ++ steps 0 7) (by rfl)⟩

end WorkStealing.Blocking
