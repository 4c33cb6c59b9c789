import EventFlow.Text.Printable

/-!
Texts as messages show them: in quotes, with everything that has no visible form escaped.

Single quotes are used unless the text holds a single quote and no double quote.
-/

namespace EventFlow.Text

/-- The escape of a character by its code point, in the shortest of three widths. -/
def codeEscape (c : Char) : List Char :=
  let n := c.toNat
  if n < 0x100 then ['\\', 'x'] ++ toHexs 2 n
  else if n < 0x10000 then ['\\', 'u'] ++ toHexs 4 n
  else ['\\', 'U'] ++ toHexs 8 n

def shownChar (quote c : Char) : List Char :=
  if c = quote || c = '\\' then ['\\', c]
  else if c = '\n' then ['\\', 'n']
  else if c = '\r' then ['\\', 'r']
  else if c = '\t' then ['\\', 't']
  else if isPrintable c then [c]
  else codeEscape c

def shownQuote (cs : List Char) : Char :=
  if cs.contains '\'' && !cs.contains '"' then '"' else '\''

def shownChars (cs : List Char) : List Char :=
  let quote := shownQuote cs
  [quote] ++ cs.flatMap (shownChar quote) ++ [quote]

/-- The text in quotes. -/
def shown (s : String) : String := String.ofList (shownChars s.toList)

end EventFlow.Text
