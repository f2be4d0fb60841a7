import Msp430.Instance.Basic

/-!
# The registry

The instances by name, each made when its name is first looked up. Instances are numbered as they are
made.
-/

namespace Msp430

structure Member where
  serial : Nat
  cpu : Instance

structure Registry where
  members : Std.ExtTreeMap String Member := ∅
  created : Nat := 0

namespace Registry

instance : Inhabited Registry := ⟨{}⟩

def size (r : Registry) : Nat := r.members.size

/-- The names of all instances in ascending order. -/
def names (r : Registry) : List String := r.members.keys

def get? (r : Registry) (name : String) : Option Instance := (r.members[name]?).map (·.cpu)

/-- The member of a name. If there is none it is made, and a name whose instance cannot be made stays free. -/
def enroll (name : String) (made : Except ε Instance) : EStateM ε Registry Member := fun r =>
  match r.members[name]? with
  | some member => .ok member r
  | none =>
    match made with
    | .ok cpu =>
      let member := { serial := r.created, cpu }
      .ok member { members := r.members.insert name member, created := r.created + 1 }
    | .error e => .error e r

/-- Puts back the instance of a name. -/
def update (r : Registry) (name : String) (cpu : Instance) : Registry :=
  { r with members := r.members.modify name ({ · with cpu }) }

end Registry

end Msp430
