import WorkStealing.Proofs.Latch.Opening

namespace WorkStealing.Latch

structure Fields where
  counter : Int
  waiters : Int
  deriving DecidableEq, Repr

def decode (word : Int64) : Fields := ⟨(remaining word).toInt, (registered word).toNat⟩

inductive Update where
  | post (n : Int32)
  | register
  | unregister
  deriving DecidableEq, Repr

namespace Update

def onWord (word : Int64) : Update → Int64
  | .post n => countDown word n
  | .register => word + 1
  | .unregister => word - 1

def onFields (f : Fields) : Update → Fields
  | .post n => { f with counter := max 0 (f.counter - n.toInt) }
  | .register => { f with waiters := f.waiters + 1 }
  | .unregister => { f with waiters := f.waiters - 1 }

def Allowed (f : Fields) : Update → Prop
  | .post n => 0 < n.toInt
  | .register => f.waiters < 2 ^ 32 - 1
  | .unregister => 0 < f.waiters

instance (f : Fields) : (u : Update) → Decidable (u.Allowed f)
  | .post n => inferInstanceAs (Decidable (0 < n.toInt))
  | .register => inferInstanceAs (Decidable (f.waiters < 2 ^ 32 - 1))
  | .unregister => inferInstanceAs (Decidable (0 < f.waiters))

/-- Every operation on the way to the new word gives what it gives on integers. A post shifts its
amount also where it takes off what is left. -/
def Exact (word : Int64) : Update → Prop
  | .post n => (counts n).toInt = n.toInt * 2 ^ 32 ∧
      (counts (remaining word)).toInt = (remaining word).toInt * 2 ^ 32 ∧
      (countDown word n).toInt = word.toInt - min (remaining word).toInt n.toInt * 2 ^ 32
  | .register => (word + 1).toInt = word.toInt + 1
  | .unregister => (word - 1).toInt = word.toInt - 1

end Update

def Permits (f : Fields) : List Update → Prop
  | [] => True
  | u :: us => u.Allowed f ∧ Permits (u.onFields f) us

instance Permits.decidable : (f : Fields) → (us : List Update) → Decidable (Permits f us)
  | _, [] => .isTrue trivial
  | f, u :: us =>
    have := Permits.decidable (u.onFields f) us
    inferInstanceAs (Decidable (u.Allowed f ∧ Permits (u.onFields f) us))

def Refines (word : Int64) (f : Fields) : Prop := ∃ c w : Nat, Packs word c w ∧ f = ⟨c, w⟩

section Word

variable {word : Int64} {f : Fields} {u : Update}

theorem permits_append {us vs : List Update} :
    Permits f (us ++ vs) ↔ Permits f us ∧ Permits (us.foldl Update.onFields f) vs := by
  induction us generalizing f with
  | nil => simp [Permits]
  | cons u us ih => simp [Permits, ih, and_assoc]

theorem Refines.decode_eq (h : Refines word f) : decode word = f := by
  obtain ⟨c, w, hp, rfl⟩ := h
  rw [decode, hp.remaining, hp.registered]

theorem Refines.toInt (h : Refines word f) : word.toInt = f.counter * 2 ^ 32 + f.waiters := by
  obtain ⟨c, w, hp, rfl⟩ := h
  exact hp.toInt

theorem Refines.counter_nonneg (h : Refines word f) : 0 ≤ f.counter := by
  obtain ⟨c, w, -, rfl⟩ := h
  exact Int.natCast_nonneg c

theorem Refines.word_eq {word' : Int64} (h : Refines word f) (h' : Refines word' f) :
    word = word' := by
  rw [← Int64.toInt_inj, h.toInt, h'.toInt]

theorem Refines.update (h : Refines word f) (hu : u.Allowed f) :
    Refines (u.onWord word) (u.onFields f) := by
  obtain ⟨c, w, hp, rfl⟩ := h
  cases u with
  | post n =>
    have hn : 0 < n.toInt := hu
    refine ⟨_, w, hp.countDown hn, ?_⟩
    -- what overshoots is cut off here by `max`, and by the difference of naturals there
    simp only [Update.onFields, Fields.mk.injEq, and_true]
    omega
  | register =>
    have hroom : (w : Int) < 2 ^ 32 - 1 := hu
    exact ⟨c, w + 1, hp.register (by omega), rfl⟩
  | unregister =>
    have hsome : (0 : Int) < w := hu
    obtain ⟨v, rfl⟩ := Nat.exists_eq_succ_of_ne_zero (n := w) (by omega)
    refine ⟨c, v, hp.unregister, ?_⟩
    simp only [Update.onFields, Fields.mk.injEq, true_and]
    omega

theorem Refines.counter_le (h : Refines word f) (hu : u.Allowed f) :
    (u.onFields f).counter ≤ f.counter := by
  have hc := h.counter_nonneg
  cases u with
  | post n =>
    have hn : 0 < n.toInt := hu
    exact max_le hc (by omega)
  | register | unregister => exact le_rfl

theorem Refines.updates {us : List Update} (h : Refines word f) (hus : Permits f us) :
    Refines (us.foldl Update.onWord word) (us.foldl Update.onFields f) ∧
      (us.foldl Update.onFields f).counter ≤ f.counter := by
  induction us generalizing word f with
  | nil => exact ⟨h, le_rfl⟩
  | cons u us ih =>
    obtain ⟨hu, hus⟩ := hus
    obtain ⟨hr, hle⟩ := ih (h.update hu) hus
    exact ⟨hr, hle.trans (h.counter_le hu)⟩

theorem Refines.exact (h : Refines word f) (hu : u.Allowed f) : u.Exact word := by
  have hnew := (h.update hu).toInt
  have hold := h.toInt
  have hc := congrArg Fields.counter h.decode_eq
  have hpos := h.counter_nonneg
  cases u with
  | post n =>
    have hn : 0 < n.toInt := hu
    simp only [decode] at hc
    refine ⟨toInt_counts hn.le, toInt_counts (hc ▸ hpos), ?_⟩
    simp only [Update.onWord, Update.onFields] at hnew
    omega
  | register | unregister =>
    simp only [Update.onWord, Update.onFields] at hnew
    exact hnew.trans (by omega)

theorem Update.Allowed.after_post {n : Int32} (h : u.Allowed f) :
    u.Allowed (onFields f (.post n)) := by
  cases u <;> exact h

theorem Update.Allowed.post_comm {n : Int32} (h : u.Allowed f) (hn : 0 < n.toInt) :
    onFields (onFields f u) (.post n) = onFields (onFields f (.post n)) u := by
  cases u with
  | post k =>
    have hk : 0 < k.toInt := h
    simp only [onFields, Fields.mk.injEq, and_true]
    omega
  | register | unregister => rfl

theorem Refines.post_comm {n : Int32} (h : Refines word f) (hn : 0 < n.toInt) (hu : u.Allowed f) :
    countDown (u.onWord word) n = u.onWord (countDown word n) := by
  have hpost (g : Fields) : (Update.post n).Allowed g := hn
  refine ((h.update hu).update (hpost _)).word_eq ?_
  rw [hu.post_comm hn]
  exact (h.update (hpost f)).update hu.after_post

theorem Refines.registered_countDown {n : Int32} (h : Refines word f) (hn : 0 < n.toInt) :
    registered (countDown word n) = registered word := by
  have hnew := (h.update (u := .post n) hn).decode_eq
  have hold := congrArg Fields.waiters h.decode_eq
  exact UInt32.toNat_inj.1 (Int.natCast_inj.1 ((congrArg Fields.waiters hnew).trans hold.symm))

theorem Refines.remaining_onWord (h : Refines word f) (hu : u.Allowed f)
    (hp : ∀ n, u ≠ .post n) : remaining (u.onWord word) = remaining word := by
  have hnew := congrArg Fields.counter (h.update hu).decode_eq
  have hold := congrArg Fields.counter h.decode_eq
  refine Int32.toInt_inj.1 (hnew.trans (Eq.trans ?_ hold.symm))
  cases u with
  | post n => exact absurd rfl (hp n)
  | register | unregister => rfl

theorem Refines.countDown_zero {n : Int32} (h : Refines word f) (hn : 0 < n.toInt)
    (h0 : f.counter = 0) : countDown word n = word := by
  have hf : f = Update.onFields f (.post n) := by
    obtain ⟨c, w⟩ := f
    simp only [Update.onFields, Fields.mk.injEq, and_true] at h0 ⊢
    omega
  exact (h.update (u := .post n) hn).word_eq (hf ▸ h)

end Word

def Post.update? (word : Int64) : Post → Option Update
  | .swap n seen => if word = seen then some (.post n) else none
  | _ => none

def Wait.update? : Wait → Option Update
  | .register => some .register
  | .undo | .leave => some .unregister
  | _ => none

def Point.update? (word : Int64) : Point → Option Update
  | .offer _ => none
  | .post p => p.update? word
  | .wait p => p.update?

section Moves

variable {l : Latch} {p : Point} {a : Move Latch Point Reply}

theorem Step.word (h : Step l p a) :
    a.state.word = l.word ∨ ∃ u, p.update? l.word = some u ∧ a.state.word = u.onWord l.word := by
  cases h with
  | refuse | offer | inert | see | pass | enter => exact .inl rfl
  | count ht | release ht => exact .inr ⟨_, if_pos rfl, ht ▸ rfl⟩
  | late | join | undo | leave | alarm => exact .inr ⟨_, rfl, rfl⟩
  | postLocate h | waitLocate h => cases h <;> exact .inl rfl
  | @wake _ _ _ b hs h => cases b <;> exact .inl rfl
  | @sleep _ _ _ b hs h => cases b <;> exact .inl rfl

theorem exists_post (l : Latch) (n : Int32) :
    ∃ a ∈ Point.moves l (.post (.swap n l.word)), a.state.word = countDown l.word n := by
  let t : Latch := { l with word := countDown l.word n }
  have hstate : (Post.proceed t).state = t := by
    simp only [Post.proceed]
    split_ifs <;> rfl
  have hmem : Post.proceed t ∈ Post.moves l (.swap n l.word) := by simp [Post.moves, t]
  refine ⟨_, List.mem_map_of_mem hmem, ?_⟩
  rw [Move.state_embed id _ _ fun _ _ => rfl, hstate]
  rfl

theorem exists_register (l : Latch) :
    ∃ a ∈ Point.moves l (.wait .register), a.state.word = l.word + 1 := by
  simp only [Point.moves, Wait.moves]
  split <;> exact ⟨_, List.mem_singleton_self _, rfl⟩

theorem exists_move {u : Update} (hu : p.update? l.word = some u) :
    ∃ a ∈ p.moves l, a.state.word = u.onWord l.word := by
  cases p with
  | offer => cases hu
  | post q =>
    cases q with
    | swap n seen =>
      obtain ⟨rfl, hn⟩ := Option.ite_none_right_eq_some.1 hu
      obtain rfl := Option.some.inj hn
      exact exists_post l n
    | look | locate | wake => cases hu
  | wait q =>
    cases q with
    | register =>
      obtain rfl := Option.some.inj hu
      exact exists_register l
    | undo =>
      obtain rfl := Option.some.inj hu
      exact ⟨_, List.mem_singleton_self _, rfl⟩
    | leave =>
      obtain rfl := Option.some.inj hu
      refine ⟨_, List.mem_singleton_self _, ?_⟩
      rw [Move.state_embed id _ _ fun _ x => by cases x <;> rfl]
      rfl
    | peek | locate | sleep => cases hu

end Moves

def written? (e : Crew.Entry Latch Call Point Reply) : Option Update :=
  if e.move.state.word = e.before.word then none else e.point.update? e.before.word

def updates (log : Log) : List Update := log.reverse.filterMap written?

section Runs

variable {l : Latch} {target : Int32} {log : Log} {k : Crew Latch Call Point Reply} {n : Nat}
  {m : Role → Nat} {c : Call} {p : Point} {u : Update}

theorem updates_cons (e : Crew.Entry Latch Call Point Reply) (log : Log) :
    updates (e :: log) = updates log ++ (written? e).toList := by
  rw [updates, List.reverse_cons, List.filterMap_append]
  cases he : written? e <;> simp [updates, he]

theorem Balanced.allowed (hb : Balanced n l (shares (.running c p) + m))
    (hk : Knows l (.running c p)) (hu : p.update? l.word = some u) :
    u.Allowed (decode l.word) := by
  have hd : decode l.word = ⟨n, (inside (shares (.running c p) + m) : Nat)⟩ :=
    Refines.decode_eq ⟨_, _, hb.word, rfl⟩
  have hroom := hb.counted.room
  rw [hd]
  cases p with
  | offer => cases hu
  | post q =>
    cases q with
    | swap k seen =>
      obtain ⟨-, hk'⟩ := Option.ite_none_right_eq_some.1 hu
      obtain rfl := Option.some.inj hk'
      exact hk.2.1
    | look | locate | wake => cases hu
  | wait q =>
    cases q with
    | register | undo | leave =>
      obtain rfl := Option.some.inj hu
      simp only [Update.Allowed, inside, Pi.add_apply, shares, Wait.roles] at hroom ⊢
      omega
    | peek | locate | sleep => cases hu

theorem refines_new (hl : Latch.new target = .ok l) : Refines l.word ⟨target.toInt, 0⟩ := by
  obtain ⟨hpos, rfl⟩ := new_eq_ok.1 hl
  refine ⟨_, 0, packs_counts hpos.le, ?_⟩
  rw [Int.toNat_of_nonneg hpos.le]
  rfl

theorem run_updates (hl : Latch.new target = .ok l) (h : Crew.Run calls Room ⟨l, []⟩ log k) :
    Permits ⟨target.toInt, 0⟩ (updates log) ∧
      (updates log).foldl Update.onWord l.word = k.state.word := by
  induction h with
  | refl => exact ⟨trivial, rfl⟩
  | start _ c _ ih => exact ih
  | @move log s before after c p a h ha ih =>
    obtain ⟨hpermits, hword⟩ := ih
    rw [updates_cons, written?, Move.fst_land]
    by_cases hsame : a.state.word = s.word
    · rw [if_pos hsame, hsame, Option.toList_none, List.append_nil]
      exact ⟨hpermits, hword⟩
    · obtain ⟨u, hu, hnew⟩ := (step_of_moves ha).word.resolve_left hsame
      obtain ⟨hb, -, hk⟩ := run_balanced hl h
      rw [Crew.total_split] at hb
      -- the mover knows that its update is allowed of what the word decodes to, and that is the
      -- pair which the record has led to
      have hallowed := hb.allowed (hk _ (by simp)) hu
      rw [← hword, ((refines_new hl).updates hpermits).1.decode_eq] at hallowed
      rw [if_neg hsame, hu, Option.toList_some, permits_append, List.foldl_concat, hword, hnew]
      exact ⟨⟨hpermits, hallowed, trivial⟩, rfl⟩

structure Faithful (target : Int32) (word : Int64) (f : Fields) : Prop where
  decodes : decode word = f
  packed : word.toInt = f.counter * 2 ^ 32 + f.waiters
  counter : 0 ≤ f.counter ∧ f.counter ≤ target.toInt
  exact : ∀ u : Update, u.Allowed f → u.Exact word
  keepsWaiters : ∀ n : Int32, 0 < n.toInt → registered (countDown word n) = registered word
  keepsCounter : ∀ u : Update, u.Allowed f → (∀ n, u ≠ .post n) →
    remaining (u.onWord word) = remaining word
  inert : f.counter = 0 → ∀ n : Int32, 0 < n.toInt → countDown word n = word
  commutes : ∀ (n : Int32) (u : Update), 0 < n.toInt → u.Allowed f →
    countDown (u.onWord word) n = u.onWord (countDown word n)

theorem Refines.faithful {word : Int64} {f : Fields} (h : Refines word f)
    (hle : f.counter ≤ target.toInt) : Faithful target word f where
  decodes := h.decode_eq
  packed := h.toInt
  counter := ⟨h.counter_nonneg, hle⟩
  exact _ := h.exact
  keepsWaiters _ := h.registered_countDown
  keepsCounter _ := h.remaining_onWord
  inert h0 _ hn := h.countDown_zero hn h0
  commutes _ _ := h.post_comm

theorem word_faithful (h : 0 < target.toInt) : ∃ l, Latch.new target = .ok l ∧
    (∀ us, Permits ⟨target.toInt, 0⟩ us → Faithful target (us.foldl Update.onWord l.word)
      (us.foldl Update.onFields ⟨target.toInt, 0⟩)) ∧
    (∀ (t : Latch) (p : Point) (u : Update), p.update? t.word = some u →
      ∃ a ∈ p.moves t, a.state.word = u.onWord t.word) ∧
    (∀ (t : Latch) (p : Point), ∀ a ∈ p.moves t, a.state.word = t.word ∨
      ∃ u, p.update? t.word = some u ∧ a.state.word = u.onWord t.word) ∧
    ∀ log k, Crew.Run calls Room ⟨l, []⟩ log k → Permits ⟨target.toInt, 0⟩ (updates log) ∧
      (updates log).foldl Update.onWord l.word = k.state.word := by
  have hl := new_eq_ok.2 ⟨h, rfl⟩
  refine ⟨_, hl, fun us hus => ?_, fun t p u => exists_move,
    fun t p a ha => (step_of_moves ha).word, fun log k hrun => run_updates hl hrun⟩
  obtain ⟨hrefines, hle⟩ := (refines_new hl).updates hus
  exact hrefines.faithful hle

abbrev overshot : List Update :=
  [.register, .register, .post 5, .unregister, .post Int32.maxValue, .register, .post 1]

/-- A waiter registers, and a post takes off all there is. -/
def emptied : List (Crew.Cue Call) :=
  [.start .wait, .move 0 0, .move 0 0, .start (.post Int32.maxValue)] ++
    List.replicate 3 (.move 1 0)

theorem word_faithful_overshot : 0 < Int32.maxValue.toInt ∧ ∃ l,
    Latch.new Int32.maxValue = .ok l ∧
    Permits ⟨Int32.maxValue.toInt, 0⟩ overshot ∧
    Faithful Int32.maxValue (overshot.foldl Update.onWord l.word) ⟨0, 2⟩ ∧
    ∃ log k, Crew.Run calls Room ⟨l, []⟩ log k ∧
      updates log = [.register, .post Int32.maxValue] ∧
      (updates log).foldl Update.onWord l.word = k.state.word := by
  have hpos : 0 < Int32.maxValue.toInt := by decide
  have hpermits : Permits ⟨Int32.maxValue.toInt, 0⟩ overshot := by decide
  obtain ⟨l, hl, hfaithful, -, -, hrun⟩ := word_faithful hpos
  obtain rfl := Except.ok.inj hl
  have hplay : (Crew.play calls (fun k c => decide (Room k c)) emptied []
      ⟨⟨counts Int32.maxValue, none, []⟩, []⟩).map (fun x => updates x.1) =
      some [.register, .post Int32.maxValue] := by rfl
  obtain ⟨log, k, hr, hupdates⟩ := Crew.exists_run_of_play (fun _ _ => of_decide_eq_true) hplay
  exact ⟨hpos, _, hl, hpermits, hfaithful _ hpermits, log, k, hr, hupdates, (hrun log k hr).2⟩

end Runs

end WorkStealing.Latch
