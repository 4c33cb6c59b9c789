import EventFlow.Token.Scan

/-!
Texts in quotes, as the tokenizer reads them back.

    readString '\'' (quotedChars v ++ ['\''] ++ rest)  =  v, and the length of what was read

A quote, a backslash, a control character and the line separators of Unicode are escaped in a text
in single quotes. A template needs no escapes but for backslashes, backticks and the opening of a
substitution.
-/

namespace EventFlow.Emission

/-! ## Texts -/

/-- A character of a text in single quotes. -/
def quotedChar (c : Char) : List Char :=
  if c = '\\' then ['\\', '\\']
  else if c = '\'' then ['\\', '\'']
  else if c = '\n' then ['\\', 'n']
  else if c = '\r' then ['\\', 'r']
  else if c = '\t' then ['\\', 't']
  else if c = '\x08' then ['\\', 'b']
  else if c = '\x0c' then ['\\', 'f']
  else if c = '\x0b' then ['\\', 'v']
  else if c = '\u2028' || c = '\u2029' then ['\\', 'u'] ++ Text.toHexs 4 c.toNat
  else if c.toNat < 0x20 then ['\\', 'x'] ++ Text.toHexs 2 c.toNat
  else [c]

def quotedChars (cs : List Char) : List Char := cs.flatMap quotedChar

/-- A text in single quotes. -/
def quote (s : String) : String := String.ofList ('\'' :: quotedChars s.toList ++ ['\''])

/-! ## Templates -/

def templateChars : List Char → List Char
  | [] => []
  | '$' :: '{' :: rest => '\\' :: '$' :: '{' :: templateChars rest
  | c :: rest =>
    if c = '\\' || c = '`' then '\\' :: c :: templateChars rest else c :: templateChars rest

/-- A template without substitutions. -/
def quoteTemplate (s : String) : String := String.ofList ('`' :: templateChars s.toList ++ ['`'])

/-! ## Keys -/

/-- Whether a text can stand without quotes: a name, or a name and a line break. -/
def isIdentifierChars : List Char → Bool
  | [] => false
  | c :: rest =>
    Token.isNameStart c &&
      (match rest.dropWhile Token.isNamePart with
        | [] => true
        | [d] => d == '\n'
        | _ => false)

def isIdentifier (s : String) : Bool := isIdentifierChars s.toList

/-- The key of an object member or a field. -/
def propertyKey (s : String) : String := if isIdentifier s then s else quote s

end EventFlow.Emission
