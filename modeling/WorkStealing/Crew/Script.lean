import WorkStealing.Crew

namespace WorkStealing.Crew

inductive Command (C : Type) where
  | call (c : C)
  | send (threads : Nat) (c : C)
  deriving DecidableEq, Repr

variable {S C P R A : Type} (m : Machine S C P R)

def obey (k : Crew S C P R) : Command C → Crew S C P R × Option R
  | .call c => (k.call m patience c).map (settle m patience) id
  | .send n c => ((k.startMany m n c).settle m patience, none)

def follow (observe : Crew S C P R → Option R → A) (k : Crew S C P R) :
    List (Command C) → Crew S C P R × List A
  | [] => (k, [])
  | c :: cs =>
    let (k, r) := obey m k c
    (follow observe k cs).map id (observe k r :: ·)

def callPerBlocked (k : Crew S C P R) (c : C) : Crew S C P R :=
  (k.blocked.repeat (fun k => (k.call m patience c).1) k).settle m patience

end WorkStealing.Crew
