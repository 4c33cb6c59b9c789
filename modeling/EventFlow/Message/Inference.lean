import EventFlow.Message.Basic
import EventFlow.Text.Digit
import EventFlow.Text.Line

/-!
Stubs: messages inferred from example data.

The type of a field is read off its example value; an array takes the type of its first item, and
a text that begins with a date and a time is a date.
-/

namespace EventFlow.Message

/-- The form of a date and a time, where `0` stands for any decimal digit. -/
def dateForm : List Char := "0000-00-00T00:00:00".toList

def matchesForm : (form cs : List Char) → Bool
  | [], _ => true
  | _ :: _, [] => false
  | f :: form, c :: cs => (if f = '0' then Text.isDecimal c else f == c) && matchesForm form cs

def isDate (s : String) : Bool := matchesForm dateForm s.toList

mutual

/-- The type of a field with the given example value. -/
def inferType : Json → String
  | .null => "unknown"
  | .bool _ => "boolean"
  | .number _ => "number"
  | .text s => if isDate s then "Date" else "string"
  | .array [] => "Array<unknown>"
  | .array (first :: _) => "Array<" ++ inferType first ++ ">"
  | .object members => r"{" ++ Text.joinWith ", " (inferMembers members) ++ r"}"

def inferMembers : Json.Members → List String
  | [] => []
  | (key, value) :: rest => (key ++ ": " ++ inferType value) :: inferMembers rest

end

/-- The message with a required field for each member of the example data. -/
def infer (name : String) (kind : MessageKind) (data : Json.Members) : Message :=
  { name := name
    kind := kind
    fields := data.map fun (key, value) =>
      { name := key, type := inferType value, required := true }
    version := 1 }

end EventFlow.Message
