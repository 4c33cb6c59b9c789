import EventFlow.DocComment
import EventFlow.Emission.Fault
import EventFlow.Emission.Quoted

/-!
Single values of a model in source text.

A leaf that is a text is written as the place demands: in quotes, as a template, as a key, as an
identifier or in a comment. Any list of characters can stand in quotes, and what is empty or zero
is no description; other leaves that are no texts are refused.

    quoted s = ok (quote s)        for every text s
-/

namespace EventFlow.Emission

variable {τ : Type} [Leaf τ]

/-- The character that a value consists of. -/
def char? (v : Json) : Option Char :=
  match v.text?.map String.toList with
  | some [c] => some c
  | _ => none

/-- The characters of a text or a list; an object counts as the list of its names. -/
def characters? : Json → Option (List Char)
  | .text s => some s.toList
  | .array items => items.mapM char?
  | .object members => members.mapM fun (name, _) => char? (.text name)
  | _ => none

/-- A leaf in single quotes. -/
def quoted (leaf : τ) : Except Fault String :=
  match characters? (Leaf.value leaf) with
  | some cs => .ok (quote (String.ofList cs))
  | none => .error (.notCharacters (Leaf.value leaf))

@[simp] theorem quoted_text (s : String) : quoted s = .ok (quote s) := by
  simp [quoted, characters?]

/-- A leaf in single quotes, if there is one. -/
def quotedOption : Option τ → Except Fault (List String)
  | some leaf => do return [← quoted leaf]
  | none => .ok []

/-- A leaf as a template. -/
def templated (leaf : τ) : Except Fault String :=
  match Leaf.value leaf with
  | .text s => .ok (quoteTemplate s)
  | v => .error (.requestNotText v)

/-- A leaf that is a text, where a name is needed. -/
def nameText (leaf : τ) : Except Fault String :=
  match Leaf.value leaf with
  | .text s => .ok s
  | v => .error (.nameNotText v)

@[simp] theorem nameText_text (s : String) : nameText s = .ok s := rfl

/-- A leaf as an identifier; `fault` says what is wrong with a text that is none. -/
def identifier (fault : String → Fault) (leaf : τ) : Except Fault String := do
  let name ← nameText leaf
  if isIdentifier name then return name else throw (fault name)

/-- A leaf as the key of a field. -/
def keyed (leaf : τ) : Except Fault String := do return propertyKey (← nameText leaf)

/-- A comment with a description, if there is one that says something, and tags. -/
def commentLines (description : Option τ) (tags : List Tag) (indent : String) :
    Except Fault (List String) :=
  match description.map Leaf.value with
  | none => .ok (DocComment.format none tags indent)
  | some (.text s) => .ok (DocComment.format (some s) tags indent)
  | some v =>
    if v.isVoid then .ok (DocComment.format none tags indent) else .error (.descriptionNotText v)

/-- Names as texts, where they are listed. -/
def listedNames (names : List Json) : Except Fault (List String) :=
  match names.mapM Json.text? with
  | some texts => .ok texts
  | none => .error .namesNotListed

end EventFlow.Emission
