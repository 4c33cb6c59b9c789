import EventFlow.Json.Equality

/-!
Single values of a model: its names, texts, numbers and truth values.

A model that source text describes has texts for names and integers for versions. A model that is
loaded from a document is loose: it keeps each single value as the document gives it, whatever its
type. Both are models over some type of leaves, and a leaf is a document value:

    value "Created" = text "Created"        value v = v
-/

namespace EventFlow

class Leaf (α : Type) where
  value : α → Json

instance : Leaf String := ⟨.text⟩

instance : Leaf Bool := ⟨.bool⟩

instance : Leaf Int := ⟨.int⟩

instance : Leaf Json := ⟨id⟩

namespace Leaf

@[simp] theorem value_text (s : String) : value s = .text s := rfl

@[simp] theorem value_bool (b : Bool) : value b = .bool b := rfl

@[simp] theorem value_int (i : Int) : value i = .int i := rfl

@[simp] theorem value_json (v : Json) : value v = v := rfl

variable {α β : Type} [Leaf α] [Leaf β]

/-- Equality by meaning. -/
def same (a : α) (b : β) : Bool := (value a).same (value b)

def sameOption : Option α → Option β → Bool
  | none, none => true
  | some a, some b => same a b
  | _, _ => false

/-- Whether a leaf is what a look-up by the other one finds. -/
def isMatch (a : α) (b : β) : Bool := (value a).isMatch (value b)

end Leaf

/-- Two lists have the same length and agree item by item. -/
def sameAll {α β : Type} (same : α → β → Bool) : List α → List β → Bool
  | [], [] => true
  | a :: as, b :: bs => same a b && sameAll same as bs
  | _, _ => false

end EventFlow
