import EventFlow.Json.Value
import EventFlow.Text.Line
import EventFlow.Text.Shown

/-!
Document values as messages show them.

A text stands for itself where it is the whole value and in quotes where it is part of one.
-/

namespace EventFlow.Json

mutual

/-- The value with its texts in quotes. -/
def shown : Json → String
  | .null => "None"
  | .bool true => "True"
  | .bool false => "False"
  | .number n => n.write Number.plain
  | .text s => Text.shown s
  | .array items => "[" ++ Text.joinWith ", " (shownItems items) ++ "]"
  | .object members => r"{" ++ Text.joinWith ", " (shownMembers members) ++ r"}"

def shownItems : List Json → List String
  | [] => []
  | x :: xs => shown x :: shownItems xs

def shownMembers : Members → List String
  | [] => []
  | (k, x) :: rest => (Text.shown k ++ ": " ++ shown x) :: shownMembers rest

end

/-- The value in a sentence: a text as it is, anything else as `shown` writes it. -/
def display : Json → String
  | .text s => s
  | v => v.shown

end EventFlow.Json
