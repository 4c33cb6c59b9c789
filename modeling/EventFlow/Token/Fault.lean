import EventFlow.Number.Numeral
import EventFlow.Text.Shown

/-!
What can be wrong with the characters of a source text.
-/

namespace EventFlow.Token

inductive Fault where
  | unterminatedString
  | unterminatedEscape
  | badHexEscape
  | badBracedEscape
  | badUnicodeEscape
  | unterminatedTemplate
  | unterminatedSubstitution
  | unterminatedComment
  | unexpectedCharacter (c : Char)
  | codePointTooLarge
  | strayDigit
  | longInteger (digits : Nat)
  deriving DecidableEq, Repr

def Fault.text : Fault → String
  | .unterminatedString => "Unterminated string literal"
  | .unterminatedEscape => "Unterminated escape sequence"
  | .badHexEscape => "Invalid \\x escape"
  | .badBracedEscape => "Invalid \\u{...} escape"
  | .badUnicodeEscape => "Invalid \\u escape"
  | .unterminatedTemplate => "Unterminated template literal"
  | .unterminatedSubstitution => "Unterminated template substitution"
  | .unterminatedComment => "Unterminated block comment"
  | .unexpectedCharacter c => "Unexpected character " ++ Text.shown (String.singleton c)
  | .codePointTooLarge => "chr() arg not in range(0x110000)"
  | .strayDigit => "A digit that is not decimal cannot start a number"
  | .longInteger digits => Number.longIntegerText digits

end EventFlow.Token
