/-!
Texts in order: by code point, from the smallest on, or as they first came up.
-/

namespace EventFlow.Text

def ascending (xs : List String) : List String := xs.mergeSort fun a b => a ≤ b

/-- Each text once, in ascending order. -/
def ascendingSet (xs : List String) : List String := ascending xs.eraseDups

/-- The texts that occur more than once, in ascending order. -/
def repeated (xs : List String) : List String := ascendingSet (xs.filter fun x => 1 < xs.count x)

/-- The texts with one more at the end, unless it is there already. -/
def mention (known : List String) (name : String) : List String :=
  if known.contains name then known else known ++ [name]

end EventFlow.Text
