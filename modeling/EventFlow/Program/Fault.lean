import EventFlow.Number.Numeral

/-!
What can be wrong with the tokens of a program.
-/

namespace EventFlow.Program

inductive Fault where
  | nesting
  | expectedMark (mark found : String)
  | expectedString
  | expectedName (found : String)
  | unexpectedToken (found : String)
  | unexpectedEnd
  | defaultExport
  | unsupportedExport (found : String)
  | expectedAs
  | importList
  | expectedFrom
  | bindingPattern
  | unterminatedType
  | unbalancedType
  | expectedArrow
  | unbalancedReturnType
  | unterminatedBody
  | argumentList
  | expectedProperty
  | comparison
  | unary (mark : String)
  | arrayLiteral
  | unsupportedKey (found : String)
  | expectedColon (key : String)
  | objectLiteral
  | longNumber
  deriving DecidableEq, Repr

def Fault.text : Fault → String
  | .nesting => "Nesting too deep"
  | .expectedMark mark found => s!"Expected '{mark}', got '{found}'"
  | .expectedString => "Expected string literal"
  | .expectedName found => s!"Expected identifier, got '{found}'"
  | .unexpectedToken found => s!"Unexpected token '{found}'"
  | .unexpectedEnd => "Unexpected end of input"
  | .defaultExport => "Default exports are not supported in flow files"
  | .unsupportedExport found => s!"Unsupported export of '{found}'"
  | .expectedAs => "Expected 'as' after '*' in import"
  | .importList => r"Expected ',' or '}' in import list"
  | .expectedFrom => "Expected 'from' in import declaration"
  | .bindingPattern => r"Expected ',' or '}' in destructuring pattern"
  | .unterminatedType => "Unterminated type annotation"
  | .unbalancedType => "Unbalanced brackets in type annotation"
  | .expectedArrow => "Expected '=>'"
  | .unbalancedReturnType => "Unbalanced brackets in return type"
  | .unterminatedBody => "Unterminated function body"
  | .argumentList => "Expected ',' or ')' in argument list"
  | .expectedProperty => "Expected property name after '.'"
  | .comparison => "Comparison operators are not supported in flow files"
  | .unary mark => s!"Unary '{mark}' is only supported on numbers"
  | .arrayLiteral => "Expected ',' or ']' in array literal"
  | .unsupportedKey found => s!"Unsupported object key '{found}'"
  | .expectedColon key => s!"Expected ':' after object key '{key}'"
  | .objectLiteral => r"Expected ',' or '}' in object literal"
  | .longNumber => Number.longNumberText

end EventFlow.Program
