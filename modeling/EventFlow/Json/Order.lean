import EventFlow.Json.Equality

/-!
Document values in order.

Texts are ordered by code point, numbers by value, and arrays by the first items that differ. No
other two values have an order. Values are collected in sets by meaning, of which arrays and
objects cannot be members:

    ascendingSet xs  has each value of xs once, from the smallest on, if sortable xs
-/

namespace EventFlow.Json

/-- Whether a value can be a member of a set. -/
def isKey : Json → Bool
  | .array _ | .object _ => false
  | _ => true

/-! ## Two values -/

mutual

/-- Whether two values have an order. -/
def comparable : Json → Json → Bool
  | .text _, .text _ => true
  | .array xs, .array ys => comparableItems xs ys
  | a, b => (number? a).isSome && (number? b).isSome

def comparableItems : List Json → List Json → Bool
  | x :: xs, y :: ys => if x.same y then comparableItems xs ys else comparable x y
  | _, _ => true

end

mutual

/-- The order of two values that have one. -/
def notAfter : Json → Json → Bool
  | .text s, .text t => s ≤ t
  | .array xs, .array ys => notAfterItems xs ys
  | a, b =>
    match number? a, number? b with
    | some m, some n => m.notAbove n
    | _, _ => true

def notAfterItems : List Json → List Json → Bool
  | [], _ => true
  | _ :: _, [] => false
  | x :: xs, y :: ys => if x.same y then notAfterItems xs ys else notAfter x y

end

/-! ## Lists of values -/

/-- Whether any two of the values have an order. -/
def sortable : List Json → Bool
  | [] => true
  | x :: xs => xs.all (comparable x) && sortable xs

def ascending (xs : List Json) : List Json := xs.mergeSort notAfter

/-- Whether a value is among others. -/
def isIn (xs : List Json) (x : Json) : Bool := xs.any (same x)

/-- How often a value is among others. -/
def countIn (xs : List Json) (x : Json) : Nat := xs.countP (same x)

/-- Each value once, where it first came up. -/
def distinct (xs : List Json) : List Json :=
  xs.foldl (fun known x => if isIn known x then known else known ++ [x]) []

def ascendingSet (xs : List Json) : List Json := ascending (distinct xs)

/-- The values that occur more than once, each once. -/
def repeated (xs : List Json) : List Json := distinct (xs.filter fun x => 1 < countIn xs x)

/-- The texts of some values, if all of them are texts. -/
def texts? (xs : List Json) : Option (List String) := xs.mapM text?

end EventFlow.Json
