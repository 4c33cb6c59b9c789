import EventFlow.Yaml.Plain

/-!
Documents in YAML, with one entry or item a line.

The items of a list stand under their key without indentation; the entries of a mapping are
indented by two. A text is written plain if it would be read back as that text, in single quotes if
all its characters can be shown, and in double quotes otherwise.
-/

namespace EventFlow.Yaml

/-! ## Plain texts -/

/-- Whether a colon or a dash before these characters would have a meaning. -/
def atGap (rest : List Char) : Bool :=
  match rest with
  | [] => true
  | c :: _ => c = ' '

/-- The characters that no plain text starts with. -/
def indicators : List Char := "#,[]{}&*!|>'\"%@`".toList

/-- The characters that no plain text starts with when a gap follows. -/
def gapIndicators : List Char := "?:-".toList

/-- No colon with a gap after it, and no `#` with a gap before it. -/
def plainInside (previous : Char) : List Char → Bool
  | [] => true
  | c :: rest =>
    !(c = ':' && atGap rest) && !(c = '#' && previous = ' ') && plainInside c rest

def plainForm : List Char → Bool
  | [] => false
  | c :: rest =>
    c ≠ ' ' && (c :: rest).getLast? ≠ some ' ' && !indicators.contains c &&
      !(gapIndicators.contains c && atGap rest) && !Text.startsWith "---" (c :: rest) &&
      !Text.startsWith "..." (c :: rest) && plainInside c rest

def isShowable (c : Char) : Bool := 0x20 ≤ c.toNat && c.toNat ≤ 0x7e

/-! ## Texts in quotes -/

def singleQuoted (cs : List Char) : List Char :=
  ['\''] ++ cs.flatMap (fun c => if c = '\'' then ['\'', '\''] else [c]) ++ ['\'']

/-- The letters that stand for some characters after a backslash. -/
def escapeLetters : List (Nat × Char) :=
  [(0x00, '0'), (0x07, 'a'), (0x08, 'b'), (0x09, 't'), (0x0a, 'n'), (0x0b, 'v'), (0x0c, 'f'),
    (0x0d, 'r'), (0x1b, 'e'), (0x22, '"'), (0x5c, '\\'), (0x85, 'N'), (0xa0, '_'), (0x2028, 'L'),
    (0x2029, 'P')]

def upperHexs (width n : Nat) : List Char := (Text.toHexs width n).map Char.toUpper

def doubleQuotedChar (c : Char) : List Char :=
  match escapeLetters.lookup c.toNat with
  | some letter => ['\\', letter]
  | none =>
    if isShowable c then [c]
    else if c.toNat ≤ 0xff then ['\\', 'x'] ++ upperHexs 2 c.toNat
    else if c.toNat ≤ 0xffff then ['\\', 'u'] ++ upperHexs 4 c.toNat
    else ['\\', 'U'] ++ upperHexs 8 c.toNat

def doubleQuoted (cs : List Char) : List Char := ['"'] ++ cs.flatMap doubleQuotedChar ++ ['"']

def textScalar (s : String) : String :=
  let cs := s.toList
  String.ofList <|
    if !cs.all isShowable then doubleQuoted cs
    else if plainForm cs && plainMeaning cs = .text then cs
    else singleQuoted cs

/-! ## Numbers -/

/-- A number with an exponent has a point as well. -/
def pointed (cs : List Char) : List Char :=
  if cs.contains '.' then cs
  else cs.flatMap fun c => if c = 'e' then ['.', '0', 'e'] else [c]

def numberScalar (n : Number) : String := String.ofList (pointed (n.write spelling).toList)

/-! ## Blocks -/

/-- The first line after a dash, and the others below it. -/
def hang : List String → List String
  | [] => []
  | line :: rest => ("- " ++ line) :: rest.map ("  " ++ ·)

mutual

/-- The lines of a value that stands for itself. -/
def blockLines : Json → List String
  | .null => ["null"]
  | .bool b => [if b then "true" else "false"]
  | .number n => [numberScalar n]
  | .text s => [textScalar s]
  | .array items => if items.isEmpty then ["[]"] else itemLines items
  | .object members => if members.isEmpty then ["{}"] else memberLines members

def itemLines : List Json → List String
  | [] => []
  | v :: rest => hang (blockLines v) ++ itemLines rest

def memberLines : Json.Members → List String
  | [] => []
  | (key, v) :: rest =>
    let head := textScalar key ++ ":"
    let lines := blockLines v
    let entry := match v with
      | .array (_ :: _) => head :: lines
      | .object (_ :: _) => head :: lines.map ("  " ++ ·)
      | _ => lines.map (head ++ " " ++ ·)
    entry ++ memberLines rest

end

/-- The text of a document. -/
def write (v : Json) : String := Text.unlines (blockLines v) ++ "\n"

end EventFlow.Yaml
