import WorkStealing.Proofs.Pool.Once
import WorkStealing.Proofs.Pool.Portions
import WorkStealing.Proofs.Pool.Trail

namespace WorkStealing.Pool

variable {ι α : Type}

/-- What others come to know of the submission of a range: the queues take a chunk or refuse it, it
counts the sleepers and posts for them, and it runs what is left. -/
inductive Act (ι α : Type) where
  | placed (t : Item ι α)
  | refused (t : Item ι α)
  | counted (sleepers limit : Nat)
  | posted (permits : Nat)
  | called (t : Item ι α)

def Act.indices? : Act ι α → Option (UInt64 × UInt64)
  | .placed t | .called t =>
    match t.closure with
    | .chunk _ lo hi _ => some (lo, hi)
    | .task .. => none
  | _ => none

def Submit.act? (p : Rings ι α) : RingSubmit ι α → SubmitMove ι α → Option (Act ι α)
  | .pushChunk _ _ _ (.offer t _ _ _), .go _ (.stay (.pushChunk _ _ _ (.record _))) =>
    some (.placed t)
  | .pushChunk _ _ _ (.offer t _ _ _), .go _ (.stay (.wakeAll _ _ _)) => some (.refused t)
  | .wakeAll _ _ (.notify (.look k)), _ => some (.counted p.gate.sleepers k)
  | .wakeAll _ _ (.notify (.post _ (.add k))), _ => some (.posted k)
  | .wakeAll _ _ (.count _), .go _ (.call _ (.run t)) => some (.called t)
  | _, _ => none

def acts (log : List (Stride ι α)) : List (Act ι α) :=
  log.reverse.filterMap fun e => e.point.act? e.pool e.move

def Submit.isCut : RingSubmit ι α → Bool
  | .cut .. => true
  | _ => false

def laps (log : List (Stride ι α)) : Nat := log.countP fun e => e.point.isCut

namespace RangeCall

variable (r : RangeCall ι) (bound : Nat → UInt64) (m k s : Nat)

def portion (i : Nat) : Item ι α := r.chunk (bound i) (bound (i + 1))

def placings : List (Act ι α) := (List.range k).map fun i => .placed (r.portion bound i)

def offered : List (Act ι α) :=
  r.placings bound k ++ if k < m then [.refused (r.portion bound k)] else []

def woken : List (Act ι α) :=
  r.offered bound m k ++ .counted s k :: if min s k = 0 then [] else [.posted (min s k)]

def story : List (Act ι α) :=
  r.woken bound m k s ++ if k < m then [.called (r.chunk (bound k) r.hi)] else []

theorem woken_prefix : (r.woken bound m k s : List (Act ι α)) <+: r.story bound m k s :=
  List.prefix_append _ _

theorem counted_prefix :
    (r.offered bound m k ++ [.counted s k] : List (Act ι α)) <+: r.story bound m k s := by
  refine List.IsPrefix.trans ?_ (r.woken_prefix bound m k s)
  rw [woken]
  exact List.prefix_append_right_inj _ |>.2 (List.cons_prefix_cons.2 ⟨rfl, List.nil_prefix⟩)

theorem offered_prefix :
    (r.offered bound m k : List (Act ι α)) <+: r.story bound m k s :=
  (List.prefix_append _ _).trans (r.counted_prefix bound m k s)

theorem placings_prefix :
    (r.placings bound k : List (Act ι α)) <+: r.story bound m k s :=
  (List.prefix_append _ _).trans (r.offered_prefix bound m k s)

theorem indices_story :
    (r.story bound m k s : List (Act ι α)).filterMap Act.indices? =
      (List.range k).map (fun i => (bound i, bound (i + 1))) ++
        if k < m then [(bound k, r.hi)] else [] := by
  have hplaced : (r.placings bound k : List (Act ι α)).filterMap Act.indices? =
      (List.range k).map fun i => (bound i, bound (i + 1)) := by
    rw [placings, List.filterMap_map]
    exact congrFun List.filterMap_eq_map _
  have hposted : (if min s k = 0 then [] else [.posted (min s k)] : List (Act ι α)).filterMap
      Act.indices? = [] := by split <;> rfl
  rw [story, woken, offered, List.filterMap_append, List.filterMap_append, List.filterMap_append,
    List.filterMap_cons_none rfl, hplaced, hposted]
  split <;> simp [Act.indices?, chunk]

theorem once {lo : UInt64} {g : Nat} (hb : Range.Portions lo r.hi g m bound) (hk : k ≤ m)
    (i : UInt64) : ((r.story bound m k s : List (Act ι α)).filterMap Act.indices?).countP
      (fun c => c.1 ≤ i ∧ i < c.2) = if lo ≤ i ∧ i < r.hi then 1 else 0 := by
  have hcount : ((List.range k).map fun i => (bound i, bound (i + 1))).countP
      (fun c => c.1 ≤ i ∧ i < c.2) = if lo ≤ i ∧ i < bound k then 1 else 0 := by
    rw [List.countP_map]
    exact hb.countP_range hk i
  have hlo := UInt64.le_iff_toNat_le.1 (hb.first ▸ hb.le (Nat.zero_le k) hk)
  rw [indices_story, List.countP_append, hcount]
  rcases Nat.lt_or_eq_of_le hk with hlt | rfl
  · have hhi := UInt64.lt_iff_toNat_lt.1 ((hb.lt_last hk).2 hlt)
    rw [if_pos hlt, List.countP_singleton]
    simp only [decide_eq_true_eq, UInt64.le_iff_toNat_le, UInt64.lt_iff_toNat_lt]
    split <;> split <;> split <;> omega
  · rw [hb.last, if_neg (Nat.lt_irrefl k)]
    rfl

end RangeCall

section Standing

variable {p q : Rings ι α} {n m c : Nat} {r : RangeCall ι} {lo : UInt64} {bound : Nat → UInt64}
  {done : List (Act ι α)} {x : RingSubmit ι α}

inductive Standing (n : Nat) (r : RangeCall ι) (lo : UInt64) (bound : Nat → UInt64) (m : Nat)
    (done : List (Act ι α)) (c : Nat) : RingSubmit ι α → Prop where
  | begin (hc : c = 0) (hd : done = []) :
    Standing n r lo bound m done c (.begin (.range r.id lo r.hi r.panic))
  | cut {start : UInt64} {k : Nat} (hk : k ≤ m) (hs : start = bound k) (hc : c = k)
    (hd : done = r.placings bound k) : Standing n r lo bound m done c (.cut r start k)
  | aim {k : Nat} {t : Item ι α} (hk : k < m) (ht : t = r.portion bound k) (hc : c = k + 1)
    (hd : done = r.placings bound k) :
    Standing n r lo bound m done c (.pushChunk r (bound k) k (.aim t))
  | offer {k s o : Nat} {t : Item ι α} {e : Ring.Push (Item ι α)} (hk : k < m)
    (ht : t = r.portion bound k) (hs : s ≤ n) (ho : o < n) (he : e.Brings t) (hc : c = k + 1)
    (hd : done = r.placings bound k) :
    Standing n r lo bound m done c (.pushChunk r (bound k) k (.offer t s o e))
  | record {k i : Nat} (hk : k < m) (hc : c = k + 1) (hd : done = r.placings bound (k + 1)) :
    Standing n r lo bound m done c (.pushChunk r (bound k) k (.record i))
  | look {k : Nat} (hk : k ≤ m) (hc : c ≤ m + 1) (hd : done = r.offered bound m k) :
    Standing n r lo bound m done c (.wakeAll r (bound k) (.notify (.look k)))
  | add {k s l : Nat} (hk : k ≤ m) (hc : c ≤ m + 1) (hl : l = min s k) (h0 : l ≠ 0)
    (hd : done = r.offered bound m k ++ [.counted s k]) :
    Standing n r lo bound m done c (.wakeAll r (bound k) (.notify (.post l (.add l))))
  | release {k s l j : Nat} (hk : k ≤ m) (hc : c ≤ m + 1) (hd : done = r.woken bound m k s) :
    Standing n r lo bound m done c (.wakeAll r (bound k) (.notify (.post l (.release j))))
  | count {k s l : Nat} (hk : k ≤ m) (hc : c ≤ m + 1) (hd : done = r.woken bound m k s) :
    Standing n r lo bound m done c (.wakeAll r (bound k) (.count l))
  | leave {k s : Nat} {o : Outcome} (hk : k ≤ m) (hc : c ≤ m + 1)
    (hd : done = r.story bound m k s) (ho : k = m → o = .returned) :
    Standing n r lo bound m done c (.leave o)

def Continues (n : Nat) (r : RangeCall ι) (lo : UInt64) (bound : Nat → UInt64) (m : Nat)
    (done : List (Act ι α)) (c : Nat) : SubmitMove ι α → Prop
  | .go _ (.stay y) => Standing n r lo bound m done c y
  | .go _ (.call y _) => ∀ o, Standing n r lo bound m done c (y.resume o)
  | .done _ _ => True

def Submit.Exact : RingSubmit ι α → Prop
  | .begin (.range _ lo hi _) => lo < hi → (hi - lo).toNat = hi.toNat - lo.toNat
  | .cut r start _ => start < r.hi → (r.hi - start).toNat = r.hi.toNat - start.toNat ∧
      (r.stop start).toNat = start.toNat + min r.granularity.toNat (r.hi.toNat - start.toNat)
  | .pushChunk _ _ _ (.offer _ s o _) => s + o < 2 ^ 64
  | .pushChunk _ _ k (.record _) => k + 1 < 2 ^ 64
  | _ => True

theorem Standing.exact {g c : Nat} {done : List (Act ι α)} (hb : Range.Portions lo r.hi g m bound)
    (hg : r.granularity.toNat = g) (hn : 2 * n ≤ 2 ^ 64) (hm : m < 2 ^ 64) (hlo : lo < r.hi)
    (h : Standing n r lo bound m done c x) : x.Exact := by
  cases h with
  | begin => exact fun _ => UInt64.toNat_sub_of_le _ _ (UInt64.le_of_lt hlo)
  | @cut _ k hk hs =>
    intro hlt
    subst hs
    exact ⟨UInt64.toNat_sub_of_le _ _ (UInt64.le_of_lt hlt), hg ▸ hb.toNat_chunkEnd hk hg⟩
  | offer _ _ hs ho =>
    change _ < _
    omega
  | record hk =>
    change _ < _
    omega
  | _ => trivial

theorem Standing.ne_inline {c : Nat} {done : List (Act ι α)} (h : Standing n r lo bound m done c x)
    (handle? : Option (ι × Nat)) : x ≠ .inline handle? := by
  cases h <;> simp

variable [BEq ι]

theorem continues_offer {a : SubmitMove ι α} {k s o : Nat} {t : Item ι α}
    {e : Ring.Push (Item ι α)} (hsize : p.size = n) (hk : k < m) (ht : t = r.portion bound k)
    (hs : s ≤ n) (ho : o < n) (he : e.Brings t) (hc : c = k + 1) (hd : done = r.placings bound k)
    (ha : a ∈ (Submit.pushChunk r (bound k) k (.offer t s o e) : RingSubmit ι α).moves p) :
    Continues n r lo bound m (done ++ ((Submit.pushChunk r (bound k) k (.offer t s o e) :
      RingSubmit ι α).act? p a).toList) c a := by
  cases Submit.step ha with
  | pushChunk h =>
    cases Push.step h with
    | offer _ hring =>
      exact .offer hk ht hs ho (he.go hring) hc ((List.append_nil _).trans hd)
    | place _ _ =>
      refine .record hk hc ?_
      simp [hd, ht, RangeCall.placings, List.range_succ, Submit.act?]
    | next _ hring hnext =>
      obtain rfl := he.error hring
      exact .offer hk ht hs (hsize ▸ hnext) rfl hc ((List.append_nil _).trans hd)
  | chunkPushed h => cases Push.step h
  | chunkRefused _ =>
    refine .look hk.le (by omega) ?_
    simp [hd, ht, RangeCall.offered, hk, Submit.act?]

theorem continues_count {a : SubmitMove ι α} {g k s l : Nat}
    (hb : Range.Portions lo r.hi g m bound) (hk : k ≤ m) (hc : c ≤ m + 1)
    (hd : done = r.woken bound m k s)
    (ha : a ∈ (Submit.wakeAll r (bound k) (.count l) : RingSubmit ι α).moves p) :
    Continues n r lo bound m
      (done ++ ((Submit.wakeAll r (bound k) (.count l) : RingSubmit ι α).act? p a).toList) c a := by
  cases Submit.step ha with
  | wakeAll h => cases Wake.step h
  | rest _ hlt =>
    have hlt := (hb.lt_last hk).1 hlt
    intro o
    have hleave : (Submit.inline (E := Ring.Push (Item ι α)) (ι := ι) (α := α) none).resume o =
        .leave o := by cases o <;> rfl
    rw [hleave]
    refine .leave (s := s) hk hc ?_ fun he => absurd he hlt.ne
    simp [hd, RangeCall.story, hlt, Submit.act?]
  | finish _ hge =>
    have hge := mt (hb.lt_last hk).2 hge
    refine .leave (s := s) hk hc ?_ fun _ => rfl
    simp [hd, RangeCall.story, hge, Submit.act?]

theorem Standing.continues {a : SubmitMove ι α} {g : Nat} (hb : Range.Portions lo r.hi g m bound)
    (hg : r.granularity.toNat = g) (hsize : p.size = n) (hlast : p.lastPlaced < n)
    (hr : r.granularity = Range.granularity p.size p.minGranularity lo r.hi) (hlo : lo < r.hi)
    (h : Standing n r lo bound m done c x) (ha : a ∈ x.moves p) :
    Continues n r lo bound m (done ++ (x.act? p a).toList) (c + if x.isCut then 1 else 0) a := by
  cases h with
  | begin hc hd =>
    cases Submit.step ha with
    | empty hge => exact absurd hlo hge
    | range _ =>
      rw [← hr]
      exact .cut (Nat.zero_le m) hb.first.symm hc (by simp [hd, RangeCall.placings, Submit.act?])
  | @cut start k hk hs hc hd =>
    subst hs
    cases Submit.step ha with
    | cut hlt =>
      have hlt := (hb.lt_last hk).1 hlt
      have hstop : r.stop (bound k) = bound (k + 1) := hb.chunkEnd_eq hlt hg
      exact .aim hlt (congrArg (r.chunk (bound k)) hstop) (congrArg Nat.succ hc)
        ((List.append_nil _).trans hd)
    | whole hge =>
      have hge := mt (hb.lt_last hk).2 hge
      refine .look hk (by simp [Submit.isCut, hc, hk]) ?_
      simp [hd, RangeCall.offered, hge, Submit.act?]
  | @aim k t hk ht hc hd =>
    cases Submit.step ha with
    | pushChunk h =>
      cases Push.step h with
      | aim => exact .offer hk ht (by omega) (by omega) rfl hc ((List.append_nil _).trans hd)
    | chunkPushed h | chunkRefused h => cases Push.step h
  | offer hk ht hs ho he hc hd => exact continues_offer hsize hk ht hs ho he hc hd ha
  | @record k i hk hc hd =>
    cases Submit.step ha with
    | chunkPushed _ => exact .cut hk (hb.chunkEnd_eq hk hg) hc ((List.append_nil _).trans hd)
    | pushChunk h | chunkRefused h => cases Push.step h
  | @look k hk hc hd =>
    cases Submit.step ha with
    | wakeAll hw =>
      cases Wake.step hw with
      | notified h =>
        cases h with
        | none h =>
          refine .count (s := p.gate.sleepers) hk hc ?_
          simp [hd, RangeCall.woken, h, Submit.act?]
      | notify h =>
        cases h with
        | @some _ l h =>
          refine .add hk hc h.symm (Nat.succ_ne_zero l) ?_
          simp [hd, Submit.act?]
    | rest h _ | finish h _ => cases Wake.step h
  | @add k s l hk hc hl h0 hd =>
    have hwoken : done ++ [.posted l] = r.woken bound m k s := by
      rw [hd, RangeCall.woken, if_neg (hl ▸ h0), hl, List.append_assoc]
      rfl
    cases Submit.step ha with
    | wakeAll hw =>
      cases Wake.step hw with
      | notify h =>
        cases h with
        | owe _ => exact .release hk hc hwoken
      | notified h => exact .count hk hc hwoken
    | rest h _ | finish h _ => cases Wake.step h
  | @release k s l j hk hc hd =>
    cases Submit.step ha with
    | wakeAll hw =>
      cases Wake.step hw with
      | notify h => cases h
      | notified _ => exact .count hk hc ((List.append_nil _).trans hd)
    | rest h _ | finish h _ => cases Wake.step h
  | count hk hc hd => exact continues_count hb hk hc hd ha
  | leave hk hc hd ho =>
    cases Submit.step ha with
    | leave => trivial

end Standing

section Trail

variable {p q : Rings ι α} {n m : Nat} {r : RangeCall ι} {lo : UInt64} {bound : Nat → UInt64}
  {log : List (Stride ι α)} {x : RingSubmit ι α}

theorem acts_cons (e : Stride ι α) (log : List (Stride ι α)) :
    acts (e :: log) = acts log ++ (e.point.act? e.pool e.move).toList := by
  rw [acts, List.reverse_cons, List.filterMap_append, acts]
  cases h : e.point.act? e.pool e.move <;> simp [h]

theorem laps_cons (e : Stride ι α) (log : List (Stride ι α)) :
    laps (e :: log) = laps log + if e.point.isCut then 1 else 0 := List.countP_cons

theorem Submit.moves_ne_nil [BEq ι] (hn : 0 < q.size)
    (hs : ∀ w ∈ q.workers, ∃ cap, w.queue.Shaped cap) (hx : ∀ handle?, x ≠ .inline handle?) :
    x.moves q ≠ [] := by
  have hpush (s : Push (Ring.Push (Item ι α)) ι α) : s.moves q ≠ [] := by
    cases s with
    | aim t => simp [Push.moves]
    | record i => simp [Push.moves]
    | offer t start o e =>
      have hlt : (start + o) % q.size < q.workers.length := Nat.mod_lt _ hn
      obtain ⟨cap, hshaped⟩ := hs _ (List.getElem_mem hlt)
      simp only [Push.moves, tryPush, List.getElem?_eq_getElem hlt]
      simpa [Queue.push, Ring.push, Machine.mapResult] using Ring.Push.moves_ne_nil hshaped e
  have hwake (w : Wake) : w.moves q ≠ [] := by
    cases w with
    | notify d => simpa [Wake.moves, Gate.notify] using Gate.Notify.moves_ne_nil (Gated.gate q) d
    | count l => simp [Wake.moves]
  cases x with
  | inline handle? => exact absurd rfl (hx handle?)
  | push s handle? => simpa [Submit.moves] using hpush s
  | pushChunk r start k s => simpa [Submit.moves] using hpush s
  | wake w handle? => simpa [Submit.moves] using hwake w
  | wakeAll r start w => simpa [Submit.moves] using hwake w
  | cut r start k =>
    simp only [Submit.moves]
    split <;> simp
  | begin | keep | leave => simp [Submit.moves]

section New

variable {c : Config} {cores : Nat}

theorem new_placing (hp : Pool.new c cores = .ok p) :
    p.minGranularity = max c.minGranularity 1 ∧ p.lastPlaced < p.size := by
  simp only [Pool.new] at hp
  split at hp
  · cases hp
  · split at hp
    · cases hp
    · obtain rfl := Except.ok.inj hp
      exact ⟨rfl, by simp [ofQueue, Pool.size]⟩

theorem new_shaped (hp : Pool.new c cores = .ok p) : ∀ w ∈ p.workers, ∃ n, w.queue.Shaped n := by
  intro w hw
  obtain ⟨-, ring, hring, hcore⟩ := new_ok hp
  have hqueue : w.queue ∈ (core p).queues := List.mem_map_of_mem hw
  rw [hcore] at hqueue
  rw [List.eq_of_mem_replicate hqueue]
  exact ⟨_, (Ring.new_ok hring).1⟩

end New

variable [BEq ι]

theorem Trail.standing {g : Nat} (hp : p.lastPlaced < p.size)
    (hb : Range.Portions lo r.hi g m bound) (hg : r.granularity.toNat = g)
    (hr : r.granularity = Range.granularity p.size p.minGranularity lo r.hi) (hlo : lo < r.hi)
    (h : Trail (Akin (· < p.size) p) (.range r.id lo r.hi r.panic) log x) :
    Standing p.size r lo bound m (acts log) (laps log) x := by
  have continues {log : List (Stride ι α)} {x : RingSubmit ι α} {q : Rings ι α} {a : SubmitMove ι α}
      (ht : Standing p.size r lo bound m (acts log) (laps log) x) (hq : Akin (· < p.size) p q)
      (ha : a ∈ x.moves q) :
      Continues p.size r lo bound m (acts (⟨q, x, a⟩ :: log)) (laps (⟨q, x, a⟩ :: log)) a := by
    have hlast : q.lastPlaced < p.size := by
      rcases hq.last with he | hlt
      · exact he.symm ▸ hp
      · exact hlt
    rw [acts_cons, laps_cons]
    exact ht.continues hb hg hq.size hlast (by rw [hq.size, hq.least, hr]) hlo ha
  induction h with
  | begin => exact .begin rfl rfl
  | stay _ hq ha ih => exact continues ih hq ha
  | call _ hq ha o ih => exact continues ih hq ha o

theorem Trail.empty {id : ι} {hi : UInt64} {panic : Option RangePanic} (hlo : ¬ lo < hi)
    (h : Trail (Akin (· < p.size) p) (.range id lo hi panic) log x) :
    acts log = [] ∧ (x = .begin (.range id lo hi panic) ∨ x = .leave .returned) := by
  induction h with
  | begin => exact ⟨rfl, .inl rfl⟩
  | stay _ _ ha ih =>
    obtain ⟨hacts, rfl | rfl⟩ := ih
    · cases Submit.step ha with
      | range h => exact absurd h hlo
      | empty _ => exact ⟨by simp [acts_cons, hacts, Submit.act?], .inr rfl⟩
    · cases Submit.step ha
  | call _ _ ha o ih =>
    obtain ⟨-, rfl | rfl⟩ := ih
    · cases Submit.step ha
    · cases Submit.step ha

structure Parted [BEq ι] (n g : Nat) (r : RangeCall ι) (lo : UInt64) (log : List (Stride ι α))
    (x : RingSubmit ι α) (bound : Nat → UInt64) (m k s : Nat) : Prop where
  portions : Range.Portions lo r.hi g m bound
  few : m ≤ 8 * n - 1
  le : k ≤ m
  laps : laps log ≤ m + 1
  acts : acts log <+: r.story bound m k s
  whole : ∀ o, x = .leave o → Pool.acts log = r.story bound m k s ∧ (k = m → o = .returned) ∧
    ∀ q : Rings ι α, x.moves q = [.done q o]
  once : ∀ o, x = .leave o → ∀ i, ((Pool.acts log).filterMap Act.indices?).countP
    (fun c => c.1 ≤ i ∧ i < c.2) = if lo ≤ i ∧ i < r.hi then 1 else 0

theorem Standing.parted {g : Nat} (hb : Range.Portions lo r.hi g m bound) (hm : m ≤ 8 * n - 1)
    (h : Standing n r lo bound m (acts log) (laps log) x) :
    ∃ k s, Parted n g r lo log x bound m k s := by
  have begun {k s : Nat} (hk : k ≤ m) (hl : laps log ≤ m + 1)
      (ha : acts log <+: r.story bound m k s) (hx : ∀ o, x ≠ .leave o) :
      ∃ k s, Parted n g r lo log x bound m k s :=
    ⟨k, s, hb, hm, hk, hl, ha, fun o he => absurd he (hx o), fun o he => absurd he (hx o)⟩
  cases h with
  | begin hc hd =>
    exact begun (s := 0) (Nat.zero_le m) (by omega) (hd ▸ List.nil_prefix) (by simp)
  | @cut _ k hk _ hc hd =>
    exact begun hk (by omega) (hd ▸ r.placings_prefix bound m k 0) (by simp)
  | @aim k _ hk _ hc hd =>
    exact begun hk.le (by omega) (hd ▸ r.placings_prefix bound m k 0) (by simp)
  | @offer k _ _ _ _ hk _ _ _ _ hc hd =>
    exact begun hk.le (by omega) (hd ▸ r.placings_prefix bound m k 0) (by simp)
  | @record k _ hk hc hd =>
    exact begun hk (by omega) (hd ▸ r.placings_prefix bound m (k + 1) 0) (by simp)
  | @look k hk hc hd => exact begun hk hc (hd ▸ r.offered_prefix bound m k 0) (by simp)
  | @add k s _ hk hc _ _ hd => exact begun hk hc (hd ▸ r.counted_prefix bound m k s) (by simp)
  | @release k s _ _ hk hc hd => exact begun hk hc (hd ▸ r.woken_prefix bound m k s) (by simp)
  | @count k s _ hk hc hd => exact begun hk hc (hd ▸ r.woken_prefix bound m k s) (by simp)
  | @leave k s o hk hc hd ho =>
    refine ⟨k, s, hb, hm, hk, hc, hd ▸ List.prefix_rfl, fun o' he => ?_, fun o' _ i => ?_⟩
    · obtain rfl := Submit.leave.inj he
      exact ⟨hd, ho, fun _ => rfl⟩
    · rw [hd]
      exact r.once bound m k s hb hk i

theorem range_parted {c : Config} {cores : Nat} {id : ι} {hi : UInt64} {panic : Option RangePanic}
    (hp : Pool.new c cores = .ok p) (h4 : 4 * p.size < 2 ^ 64)
    (h : Trail (Akin (· < p.size) p) (.range id lo hi panic) log x) :
    (¬ lo < hi → acts log = [] ∧ (x = .begin (.range id lo hi panic) ∨ x = .leave .returned)) ∧
      (lo < hi → ∃ (bound : Nat → UInt64) (m k s : Nat), Parted p.size
        (max ((hi.toNat - lo.toNat) / (4 * p.size)) (max c.minGranularity.toNat 1))
        ⟨id, hi, Range.granularity p.size p.minGranularity lo hi, panic⟩ lo log x bound m k s) ∧
      x.Exact ∧ ∀ q, Akin (· < p.size) p q → x.moves q ≠ [] := by
  obtain ⟨hn, -⟩ := new_ok hp
  obtain ⟨hleast, hlast⟩ := new_placing hp
  have hgo {q : Rings ι α} (hq : Akin (· < p.size) p q) (hx : ∀ handle?, x ≠ .inline handle?) :
      x.moves q ≠ [] :=
    Submit.moves_ne_nil (hq.size.symm ▸ hn) (hq.shaped (new_shaped hp)) hx
  by_cases hlo : lo < hi
  · have hlength : (Range.granularity p.size p.minGranularity lo hi).toNat =
        max ((hi.toNat - lo.toNat) / (4 * p.size)) (max c.minGranularity.toNat 1) := by
      rw [Range.toNat_granularity h4 hlo, hleast, Range.toNat_max]
      rfl
    generalize hg : max ((hi.toNat - lo.toNat) / (4 * p.size)) (max c.minGranularity.toNat 1) = g
      at hlength
    have hpos : 0 < g := by omega
    obtain ⟨m, hb, hm⟩ := Range.exists_portions hlo hpos
    have hfew := Range.count_le hn hpos (by omega) hm
    have hshort := Range.count_le_length hpos hm
    have hlt := hi.toNat_lt
    let r : RangeCall ι := ⟨id, hi, Range.granularity p.size p.minGranularity lo hi, panic⟩
    have hstanding := h.standing (r := r) hlast hb hlength rfl hlo
    exact ⟨fun hge => absurd hlo hge, fun _ => ⟨_, m, hstanding.parted hb hfew⟩,
      hstanding.exact hb hlength (by omega) (by omega) hlo, fun q hq => hgo hq hstanding.ne_inline⟩
  · obtain ⟨hacts, hx⟩ := h.empty hlo
    refine ⟨fun _ => ⟨hacts, hx⟩, fun hlt => absurd hlt hlo, ?_, fun q hq => hgo hq ?_⟩
    · rcases hx with rfl | rfl
      · exact fun hlt => absurd hlt hlo
      · trivial
    · rcases hx with rfl | rfl <;> simp

/-- Two chunks fill the only queue, and what is left of the range panics. -/
def cutShort : Order Nat Unit := .range 0 0 40 (some ⟨false, .message "boom"⟩)

theorem range_parted_cutShort : ∃ (log : List (Stride Nat Unit)) (x : RingSubmit Nat Unit),
    Pool.new narrow 0 = .ok alone ∧ 4 * alone.size < 2 ^ 64 ∧
      Trail (Akin (· < alone.size) alone) cutShort log x ∧
      x = .leave (.panicked (.message "boom")) ∧
      ∃ (bound : Nat → UInt64) (m k s : Nat), Parted 1 16
        ⟨0, 40, Range.granularity 1 16 0 40, some ⟨false, .message "boom"⟩⟩ 0 log x bound m k s := by
  have hnew : Pool.new narrow 0 = .ok alone := by rfl
  have hp : (Crew.play calls (fun _ _ => true) (.start (.submit cutShort) ::
      List.replicate 25 (.move 0 0)) [] ⟨alone, []⟩).map (fun x => x.2.threads) =
      some [.running (.submit cutShort)
        (.busy .caller (.submit (.leave (.panicked (.message "boom")))) [])] := by rfl
  obtain ⟨log, k, hrun, ht⟩ := Crew.exists_run_of_play (fun _ _ h => h) hp
  obtain ⟨⟨o, strides, ho, htrail, -⟩, -⟩ := (run_trails (by decide) hrun).2 0 _ (by rw [ht]; rfl)
  obtain rfl := Call.submit.inj (ho rfl)
  have hparted := range_parted hnew (by decide) htrail
  exact ⟨strides, _, hnew, by decide, htrail, rfl, hparted.2.1 (by decide)⟩

end Trail

end WorkStealing.Pool
