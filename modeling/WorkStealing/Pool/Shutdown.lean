import WorkStealing.Pool.Turn

namespace WorkStealing.Pool

/-- `waiting` are the workers not yet joined, and `seen` those of them found still running in this
pass. -/
inductive Shutdown (D ι α : Type) where
  | begin
  | mark (i : Nat)
  | join (waiting seen : List Nat)
  | notify (waiting : List Nat) (n : Gate.Notify)
  | drain (i : Nat) (d : D) (dropped : Nat)
  | cancel (i : Nat) (t : Item ι α) (slot : Nat) (d : ResultSlot.Deliver α) (dropped : Nat)
  | drop (i : Nat) (t : Item ι α) (dropped : Nat)
  | report (dropped : Nat)
  | complete

def Job.slot? {ι α : Type} : Job ι α → Option Nat
  | .task _ _ _ slot => slot
  | .chunk .. => none

namespace Shutdown

open TurnMove

variable {Q E D ι α : Type}

def discard (unwinding : Bool) (i : Nat) (t : Item ι α) (dropped : Nat) : Shutdown D ι α :=
  match t.closure.slot? with
  | none => .drop i t dropped
  | some slot =>
    match ({} : Completer).drop unwinding with
    | some d => .cancel i t slot d dropped
    | none => .drop i t dropped

def moves [Queue Q (Item ι α) E D] (unwinding : Bool) (p : Pool Q ι α) :
    Shutdown D ι α → List (TurnMove Q ι α (Shutdown D ι α))
  | .begin => [stay (p.note (.notice .shutdownInitiated)) (.mark 0)]
  | .mark i =>
    if i < p.size then
      [stay (if p.phase? i = some .running then p.setPhase i .stopping else p) (.mark (i + 1))]
    else [stay p (.join (List.range p.size) [])]
  | .join (i :: waiting) seen =>
    [stay p (.join waiting (if p.phase? i = some .stopped then seen else seen ++ [i]))]
  | .join [] [] => [stay p (.drain 0 (Queue.popping Q) 0)]
  | .join [] (i :: seen) => [stay p (.notify (i :: seen) .all)]
  | .notify waiting n => Gate.notify p n (fun n => .stay (.notify waiting n))
      fun p _ => stay p (.join waiting [])
  | .drain i d dropped =>
    if i < p.size then
      tryPop p i d (fun d => .stay (.drain i d dropped)) fun p t =>
        match t with
        | none => stay p (.drain (i + 1) (Queue.popping Q) dropped)
        | some t => stay p (discard unwinding i t dropped)
    else [stay p (.report dropped)]
  | .cancel i t slot d dropped =>
    handOver p slot d (.cancel i t slot · dropped) fun p _ => stay p (.drop i t dropped)
  | .drop i t dropped =>
    [stay (p.noteAll (t.drop.map fun j => .dropped j.label))
      (.drain i (Queue.popping Q) (dropped + 1))]
  | .report dropped =>
    [stay (if dropped = 0 then p else p.note (.notice (.dropped dropped))) .complete]
  | .complete => [leave (p.note (.notice .shutdownComplete)) .returned]

theorem discard_of_slot {unwinding : Bool} {i dropped slot : Nat} {t : Item ι α}
    (h : t.closure.slot? = some slot) : (discard unwinding i t dropped : Shutdown D ι α) =
      .cancel i t slot (.store (Completer.verdict unwinding)) dropped := by
  rw [discard, h]
  rfl

theorem discard_of_none {unwinding : Bool} {i dropped : Nat} {t : Item ι α}
    (h : t.closure.slot? = none) :
    (discard unwinding i t dropped : Shutdown D ι α) = .drop i t dropped := by
  rw [discard, h]

theorem moves_drop [Queue Q (Item ι α) E D] (unwinding : Bool) (p : Pool Q ι α) (i : Nat)
    (t : Item ι α) (dropped : Nat) : (Shutdown.drop i t dropped).moves unwinding p =
      [stay (p.note (.dropped t.closure.label)) (.drain i (Queue.popping Q) (dropped + 1))] := by
  rw [moves, Task.drop_eq]
  rfl

end Shutdown

end WorkStealing.Pool
