import WorkStealing.Semaphore.Basic

namespace WorkStealing

structure Gate where
  sleepers : Nat := 0
  semaphore : Semaphore := {}
  deriving DecidableEq, Repr

class Gated (S : Type) where
  gate : S → Gate
  setGate : S → Gate → S

instance : Gated Gate := ⟨id, fun _ g => g⟩

namespace Gate

def setSemaphore (g : Gate) (s : Semaphore) : Gate := { g with semaphore := s }

def enter (g : Gate) : Gate := { g with sleepers := g.sleepers + 1 }

def leave (g : Gate) : Gate := { g with sleepers := g.sleepers - 1 }

inductive Notify where
  | look (limit : Nat)
  | post (n : Nat) (p : Semaphore.Post)
  deriving DecidableEq, Repr

def Notify.moves (g : Gate) : Notify → List (Move Gate Notify Nat)
  | .look limit =>
    match min g.sleepers limit with
    | 0 => [.done g 0]
    | n + 1 => [.go g (.post (n + 1) (.add (n + 1)))]
  | .post n p => (p.moves g.semaphore).map (.embed g.setSemaphore (.post n)
      fun s _ => .done (g.setSemaphore s) n)

def Notify.one : Notify := .look 1

def Notify.all : Notify := .look (UInt64.size - 1)

def Notify.always : Notify := .post 1 (.add 1)

inductive Sleep (K F : Type) where
  | declare
  | recheck (k : K)
  | retract (found : F)
  | wait (p : Semaphore.Wait)
  | wake
  deriving DecidableEq, Repr

section

variable {S K F : Type} [Gated S]

open Gated

def Sleep.moves (recheck : Machine S Unit K (Option F)) (s : S) :
    Sleep K F → List (Move S (Sleep K F) (Option F))
  | .declare => [.go (setGate s (gate s).enter) (.recheck (recheck.enter ()))]
  | .recheck k => (recheck.moves s k).map (.embed id .recheck fun s found =>
      match found with
      | some f => .go s (.retract f)
      | none => .go s (.wait .subtract))
  | .retract f => [.done (setGate s (gate s).leave) (some f)]
  | .wait p => (p.moves (gate s).semaphore).map (.embed
      (fun m => setGate s ((gate s).setSemaphore m)) .wait
      fun m _ => .go (setGate s ((gate s).setSemaphore m)) .wake)
  | .wake => [.done (setGate s (gate s).leave) none]

def notify {Q R : Type} (s : S) (n : Notify) (stay : Notify → Q) (finish : S → Nat → Move S Q R) :
    List (Move S Q R) :=
  (n.moves (gate s)).map (.embed (setGate s) stay fun g k => finish (setGate s g) k)

end

end Gate

end WorkStealing
