import Mathlib.Data.List.Basic

/-!
# JSON values over a type of numbers

The members of an object are kept in the order of a traversal.  Two values are compared by their
structure, with a comparison of their numbers as a parameter (`eqBy`), so that values which agree
up to a coarser reading of the numbers can be told from equal ones.
-/

namespace ClawDesk.Foundations

inductive JsonTree (ν : Type) where
  | null
  | bool (b : Bool)
  | number (n : ν)
  | string (s : String)
  | array (items : List (JsonTree ν))
  | object (members : List (String × JsonTree ν))

namespace JsonTree

variable {ν : Type}

mutual

/-- Equality of values, up to a comparison of their numbers. -/
def eqBy (same : ν → ν → Bool) : JsonTree ν → JsonTree ν → Bool
  | null, null => true
  | bool b, bool b' => b == b'
  | number n, number n' => same n n'
  | string s, string s' => s == s'
  | array items, array items' => eqItems same items items'
  | object members, object members' => eqMembers same members members'
  | _, _ => false

def eqItems (same : ν → ν → Bool) : List (JsonTree ν) → List (JsonTree ν) → Bool
  | [], [] => true
  | v :: rest, v' :: rest' => eqBy same v v' && eqItems same rest rest'
  | _, _ => false

def eqMembers (same : ν → ν → Bool) :
    List (String × JsonTree ν) → List (String × JsonTree ν) → Bool
  | [], [] => true
  | (name, v) :: rest, (name', v') :: rest' =>
      name == name' && eqBy same v v' && eqMembers same rest rest'
  | _, _ => false

end

attribute [simp] eqBy eqItems eqMembers

variable {same : ν → ν → Bool}

theorem length_eq_of_eqItems : ∀ {items items' : List (JsonTree ν)},
    eqItems same items items' = true → items.length = items'.length
  | [], [], _ => rfl
  | _ :: _, _ :: _, h => by
      rw [eqItems, Bool.and_eq_true] at h
      exact congrArg (· + 1) (length_eq_of_eqItems h.2)

theorem length_eq_of_eqMembers : ∀ {members members' : List (String × JsonTree ν)},
    eqMembers same members members' = true → members.length = members'.length
  | [], [], _ => rfl
  | _ :: _, _ :: _, h => by
      rw [eqMembers, Bool.and_eq_true] at h
      exact congrArg (· + 1) (length_eq_of_eqMembers h.2)

end JsonTree

end ClawDesk.Foundations
