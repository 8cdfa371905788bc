import WorkStealing.Proofs.Blocking.Account
import WorkStealing.Proofs.Blocking.Wakeup
import WorkStealing.Proofs.Linked.Chain
import WorkStealing.Proofs.Ring.Delivery
import WorkStealing.Proofs.Ring.Staged

namespace WorkStealing.Blocking

open Queue (Staged)

variable {Q α E D : Type}

def oneByOne (k : Crew (Blocking Q) (Call α) (Point α E D) (Reply α)) : Call α → Bool
  | .enqueue _ => k.threads.all fun t => producing t == 0
  | _ => true

theorem oneByOne_of (k : Crew (Blocking Q) (Call α) (Point α E D) (Reply α)) (c : Call α)
    (h : oneByOne k c) : OneByOne k c := by
  rintro ⟨v, rfl⟩ t ht
  exact eq_of_beq (List.all_eq_true.1 h t ht)

variable [Queue Q α E D]

def Served (k : Crew (Blocking Q) (Call α) (Point α E D) (Reply α)) : Prop :=
  ∀ c p, .running c p ∈ k.threads → c = .dequeue ∧ p = .dequeue (.sleep (.wait .acquire)) ∧
    k.state.gate.semaphore.permits = 0 ∧ k.state.closed = false ∧ (accepted k).Perm (returned k)

section

variable [Staged Q α E D] {spins n : Nat} {b : Q} {log : Log Q α}
  {allowed : Crew (Blocking Q) (Call α) (Point α E D) (Reply α) → Call α → Prop}
  {k : Crew (Blocking Q) (Call α) (Point α E D) (Reply α)}

theorem inHand_eq_nil (h : ∀ t ∈ k.threads, hand? k.state.base t = none) : inHand k = [] :=
  List.filterMap_eq_nil_iff.2 h

theorem served_of_quiet (hb : Staged.Tracks n b (Ghost.start : Ghost α) 0)
    (h : Crew.Run (calls spins) allowed ⟨⟨b, {}, false⟩, []⟩ log k) (hx : Exact log)
    (hwrap : Staged.Wraps Q → offers k < 2 ^ 63)
    (hl : (∀ k c, allowed k c → OneByOne k c) ∨ Sighted log) (hq : Crew.Quiet (calls spins) k) :
    Served k := by
  intro c p ht
  have hwrap' : Staged.Wraps Q → (Ghost.start : Ghost α).values.length + offers k < 2 ^ 63 :=
    fun hw => by simpa [Ghost.start] using hwrap hw
  -- values are told apart by counting those of each kind, with a ghost for each count
  have hkept (f : α → Bool) := run_kept True
    (∀ k c, allowed k c → OneByOne k c) f hb (fun ht => ⟨Ghost.clear_start, ht⟩) h hx
    (fun _ => .inr hl) hwrap'
  obtain ⟨g, hk, hknows⟩ := hkept fun _ => false
  obtain ⟨rfl, rfl, hp⟩ := hk.stuck hknows hq ht
  refine ⟨rfl, rfl, hp, (hk.quiet hknows hq ht).2, ?_⟩
  have hstuck (t) (ht : t ∈ k.threads) : (∃ c r, t = .finished c r) ∨
      t = .running .dequeue (.dequeue (.sleep (.wait .acquire))) := by
    rcases t with ⟨c, p⟩ | ⟨c, r⟩
    · obtain ⟨rfl, rfl, -⟩ := hk.stuck hknows hq ht
      exact .inr rfl
    · exact .inl ⟨c, r, rfl⟩
  have hout : ∀ t ∈ k.threads, Outside t := by
    intro t ht
    rcases hstuck t ht with ⟨c, r, rfl⟩ | rfl <;> trivial
  have hhand : inHand k = [] := by
    refine inHand_eq_nil fun t ht => ?_
    rcases hstuck t ht with ⟨c, r, rfl⟩ | rfl <;> rfl
  refine perm_of_countP fun f => ?_
  obtain ⟨g, hk, hknows⟩ := hkept f
  have hf := hk.front_eq hout ((hk.quiet hknows hq ht).1 trivial)
  rw [hk.countP_accepted hknows hout hf, hhand, List.append_nil]

end

theorem quiet_served {spins : Nat} :
    (∀ capacity slotSize (r : Ring α), Ring.new capacity slotSize = .ok r →
      ∀ allowed log k, Crew.Run (calls spins) allowed ⟨⟨r, {}, false⟩, []⟩ log k → Exact log →
        offers k < 2 ^ 63 → ((∀ k c, allowed k c → OneByOne k c) ∨ Sighted log) →
        Crew.Quiet (calls spins) k → Served k) ∧
    ∀ allowed log k, Crew.Run (calls spins) allowed ⟨⟨({} : Linked α), {}, false⟩, []⟩ log k →
      Exact log → ((∀ k c, allowed k c → OneByOne k c) ∨ Sighted log) →
      Crew.Quiet (calls spins) k → Served k := by
  refine ⟨fun capacity slotSize r hr allowed log k h hx hb hl hq => ?_,
    fun allowed log k h hx hl hq => ?_⟩
  · exact served_of_quiet (n := capacity.toNat) (Ring.tracks_start hr) h hx (fun _ => hb) hl hq
  · exact served_of_quiet (n := 0) Linked.tracks_start h hx False.elim hl hq

structure Rests (spins : Nat)
    (allowed : Crew (Blocking Q) (Call α) (Point α E D) (Reply α) → Call α → Prop) (b : Q)
    (ins outs : List α) (log : Log Q α) (k : Crew (Blocking Q) (Call α) (Point α E D) (Reply α)) :
    Prop where
  run : Crew.Run (calls spins) allowed ⟨⟨b, {}, false⟩, []⟩ log k
  exact : Exact log
  quiet : Crew.Quiet (calls spins) k
  opened : k.state.closed = false
  waits : ∃ c p, .running c p ∈ k.threads
  accepted : accepted k = ins
  returned : returned k = outs
  few : offers k < 2 ^ 63

def resting (spins : Nat)
    (x : Log Q α × Crew (Blocking Q) (Call α) (Point α E D) (Reply α)) : List α × List α × Bool :=
  (accepted x.2, returned x.2, decide (Exact x.1) && decide (offers x.2 < 2 ^ 63) &&
    x.2.isQuiet (calls spins) && !x.2.state.closed && x.2.threads.any Thread.isRunning)

theorem rests_of_play (spins : Nat) (b : Q) (script : List (Crew.Cue (Call α)))
    {allowed : Crew (Blocking Q) (Call α) (Point α E D) (Reply α) → Call α → Prop}
    {ok : Crew (Blocking Q) (Call α) (Point α E D) (Reply α) → Call α → Bool} {ins outs : List α}
    (hok : ∀ k c, ok k c → allowed k c)
    (h : (Crew.play (calls spins) ok script [] ⟨⟨b, {}, false⟩, []⟩).map (resting spins) =
      some (ins, outs, true)) : ∃ log k, Rests spins allowed b ins outs log k := by
  obtain ⟨log, k, hrun, hx⟩ := Crew.exists_run_of_play hok h
  simp only [resting, Prod.mk.injEq, Bool.and_eq_true, decide_eq_true_eq, Bool.not_eq_true',
    List.any_eq_true] at hx
  obtain ⟨hins, houts, ⟨⟨⟨hexact, hfew⟩, hquiet⟩, hopen⟩, t, ht, hrunning⟩ := hx
  refine ⟨log, k, hrun, hexact, Crew.isQuiet_iff.1 hquiet, hopen, ?_, hins, houts, hfew⟩
  cases t with
  | running c p => exact ⟨c, p, ht⟩
  | finished c r => exact absurd hrunning Bool.false_ne_true

def steps (i n : Nat) : List (Crew.Cue (Call Nat)) := List.replicate n (.move i 0)

def inTurn (push pop miss : Nat) : List (Crew.Cue (Call Nat)) :=
  .start (.enqueue 7) :: steps 0 push ++ .start .dequeue :: steps 1 pop ++
    .start .dequeue :: steps 2 miss

theorem quiet_served_inTurn :
    (∃ log k, Rests 0 OneByOne Ring.pair [7] [7] log k ∧ Served k) ∧
      ∃ log k, Rests 0 OneByOne ({} : Linked Nat) [7] [7] log k ∧ Served k := by
  have hn : Ring.new 2 none = .ok Ring.pair := by rfl
  obtain ⟨log, k, hs⟩ := rests_of_play 0 Ring.pair (inTurn 7 8 6) oneByOne_of
    (by rfl : _ = some ([7], [7], true))
  obtain ⟨log', k', hs'⟩ := rests_of_play 0 ({} : Linked Nat) (inTurn 4 5 5)
    oneByOne_of (by rfl : _ = some ([7], [7], true))
  refine ⟨⟨log, k, hs, ?_⟩, log', k', hs', ?_⟩
  · exact quiet_served.1 2 none Ring.pair hn OneByOne log k hs.run hs.exact hs.few
      (.inl fun _ _ h => h) hs.quiet
  · exact quiet_served.2 OneByOne log' k' hs'.run hs'.exact (.inl fun _ _ h => h) hs'.quiet

/-- Two consumers sleep. A producer claims the first place and stalls; a second one fills the next
place and wakes a consumer, which cannot see past the first place and goes back to sleep; then the
first producer goes on and wakes one consumer. -/
def overtake (miss claim push wake publish pop : Nat) : List (Crew.Cue (Call Nat)) :=
  .start .dequeue :: steps 0 miss ++ .start .dequeue :: steps 1 miss ++
    .start (.enqueue 1) :: steps 2 claim ++ .start (.enqueue 2) :: steps 3 push ++
    steps 0 wake ++ steps 2 publish ++ steps 0 pop

theorem overtaken : Ring.new 2 none = .ok Ring.pair ∧
    (∃ log k, Rests 0 (fun _ _ => True) Ring.pair [1, 2] [1] log k ∧
      ¬ (accepted k).Perm (returned k)) ∧
    ∃ log k, Rests 0 (fun _ _ => True) ({} : Linked Nat) [1, 2] [1] log k ∧
      ¬ (accepted k).Perm (returned k) := by
  have hne : ¬ [1, 2].Perm [1] := fun h => by simpa using h.length_eq
  obtain ⟨log, k, hs⟩ := rests_of_play 0 Ring.pair (overtake 6 4 9 8 5 10)
    (fun (_ _) (_ : true = true) => trivial) (by rfl : _ = some ([1, 2], [1], true))
  obtain ⟨log', k', hs'⟩ := rests_of_play 0 ({} : Linked Nat) (overtake 5 2 6 7 4 7)
    (fun (_ _) (_ : true = true) => trivial) (by rfl : _ = some ([1, 2], [1], true))
  refine ⟨by rfl, ⟨log, k, hs, ?_⟩, log', k', hs', ?_⟩
  · rw [hs.accepted, hs.returned]
    exact hne
  · rw [hs'.accepted, hs'.returned]
    exact hne

end WorkStealing.Blocking
