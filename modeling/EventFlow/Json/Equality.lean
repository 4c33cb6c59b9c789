import EventFlow.Json.Value

/-!
Equality of document values by meaning.

Numbers are equal when their exact values are, truth values count as one and zero, and the order
of an object's members does not matter. What is not a number is the same as itself but does not
match anything when it is looked up by.
-/

namespace EventFlow.Json

/-- The number that a value counts as. -/
def number? : Json → Option Number
  | .number n => some n
  | .bool b => some (.int (if b then 1 else 0))
  | _ => none

mutual

def same : Json → Json → Bool
  | .null, .null => true
  | .text s, .text t => s == t
  | .array xs, .array ys => sameItems xs ys
  | .object ms, .object ns => ms.length == ns.length && sameMembers ms ns
  | .bool a, b => match number? b with
    | some n => (Number.int (if a then 1 else 0)).same n
    | none => false
  | .number m, b => match number? b with
    | some n => m.same n
    | none => false
  | _, _ => false

def sameItems : List Json → List Json → Bool
  | [], [] => true
  | x :: xs, y :: ys => same x y && sameItems xs ys
  | _, _ => false

/-- Every member of the first object is in the second. -/
def sameMembers : Members → Members → Bool
  | [], _ => true
  | (k, x) :: ms, ns => match get? k ns with
    | some y => same x y && sameMembers ms ns
    | none => false

end

/-- Whether a value is what a look-up by the other one finds. -/
def isMatch (a b : Json) : Bool := a.same b && !a.isNaN

end EventFlow.Json
