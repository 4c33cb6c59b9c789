import EventFlow.Emission.Single
import EventFlow.Json.Writer

/-!
Messages as type declarations.

    type ItemCreated = Event<'ItemCreated', {
      id: string;
      label?: string;
    }>;
-/

namespace EventFlow.Emission

variable {τ β ν : Type} [Leaf τ] [Leaf β] [Leaf ν]

/-- The tag for a value, unless it is too long to be written. -/
def valueTags (name : String) (v : Json) (text : String) : Except Fault (List Tag) :=
  if v.isWritable then .ok [⟨name, text⟩] else .error .longNumber

/-- The default of a field, if it has one. -/
def defaultTags (f : Field τ β) : Except Fault (List Tag) :=
  if f.default = .null then .ok [] else valueTags "default" f.default f.default.write

/-- The lines of a field: its comment, and its type. -/
def fieldLines (f : Field τ β) : Except Fault (List String) := do
  let tags ← defaultTags f
  let comment ← commentLines f.description tags "  "
  let key ← keyed f.name
  let mark := if (Leaf.value f.required).isVoid then "?" else ""
  return comment ++ ["  " ++ key ++ mark ++ ": " ++ (Leaf.value f.type).display ++ ";"]

/-- The version of a message, unless it is the first. -/
def versionTags (m : Message τ β ν) : Except Fault (List Tag) :=
  let version := Leaf.value m.version
  if version.same (.int 1) then .ok [] else valueTags "version" version version.display

/-- The declaration of a message, line by line. -/
def messageLines (m : Message τ β ν) : Except Fault (List String) := do
  let name ← identifier .messageName m.name
  let tags ← versionTags m
  let comment ← commentLines m.description tags ""
  let head := "type " ++ name ++ " = " ++ m.kind.typeName ++ "<" ++ quote name ++ ", "
  if m.fields.isEmpty then return comment ++ [head ++ "{}>;"]
  else
    let fields ← m.fields.mapM fieldLines
    return comment ++ [head ++ r"{"] ++ fields.flatten ++ [r"}>;"]

end EventFlow.Emission
