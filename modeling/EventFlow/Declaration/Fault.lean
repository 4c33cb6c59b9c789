import EventFlow.Json.Reader
import EventFlow.Token.Fault

/-!
What can be wrong with type declarations.
-/

namespace EventFlow.Declaration

inductive Fault where
  | lexical (fault : Token.Fault)
  | nesting
  | unterminated (type : String)
  | duplicateType (type : String)
  | duplicateMessage (message : String)
  | circular (names : List String)
  | unbalanced
  | expectedEquals (type : String)
  | messageName (type : String)
  | expectedComma (type : String)
  | inlineFields (message : String)
  | badVersion (version type : String)
  | versionNumeral (version : String)
  | longVersion (digits : Nat)
  | unexpectedField (found : String)
  | duplicateField (field : String)
  | expectedColon (field : String)
  | missingType (field : String)
  | badDefault (field : String) (error : Json.ReadError)
  | unterminatedFields
  | longNumber
  deriving DecidableEq, Repr

/-- A text in quotes, cut off after two hundred characters. -/
def citedNumeral (s : String) : String := String.ofList ((Text.shownChars s.toList).take 200)

def Fault.text : Fault → String
  | .lexical fault => fault.text
  | .nesting => "Nesting too deep"
  | .unterminated type => s!"Unterminated type declaration '{type}'"
  | .duplicateType type => s!"Duplicate type declaration '{type}'"
  | .duplicateMessage message => s!"Duplicate message declaration '{message}'"
  | .circular names => "Circular type alias involving " ++ " -> ".intercalate names
  | .unbalanced => "Unbalanced brackets in type declaration"
  | .expectedEquals type => s!"Expected '=' in type declaration '{type}'"
  | .messageName type => s!"Message type '{type}' must name its message with a string literal"
  | .expectedComma type => s!"Expected ',' after message name in '{type}'"
  | .inlineFields message =>
    s!"Message '{message}' must declare its fields inline as an object type"
  | .badVersion version type => s!"Invalid @version '{version}' on '{type}'"
  | .versionNumeral version =>
    "invalid literal for int() with base 10: " ++ citedNumeral version
  | .longVersion digits => Number.longIntegerText digits
  | .unexpectedField found => s!"Unexpected '{found}' in message fields"
  | .duplicateField field => s!"Duplicate field '{field}'"
  | .expectedColon field => s!"Expected ':' after field '{field}'"
  | .missingType field => s!"Missing type for field '{field}'"
  | .badDefault field error => s!"Invalid @default for field '{field}': {error.message}"
  | .unterminatedFields => "Unterminated message field list"
  | .longNumber => Number.longNumberText

end EventFlow.Declaration
