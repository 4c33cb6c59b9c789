import EventFlow.Json.Value
import EventFlow.Text.Digit

/-!
Writing document texts: ASCII only, `", "` between items and `": "` after names.

`write` keeps the order of members, `writeSorted` sorts them by name at every level.
-/

namespace EventFlow.Json

/-- The escape of a character by its code unit, or by two of them beyond the first plane. -/
def unitEscape (c : Char) : List Char :=
  let n := c.toNat
  if n < 0x10000 then ['\\', 'u'] ++ Text.toHexs 4 n
  else
    let m := n - 0x10000
    ['\\', 'u'] ++ Text.toHexs 4 (0xd800 + m / 0x400) ++
      ['\\', 'u'] ++ Text.toHexs 4 (0xdc00 + m % 0x400)

def quotedChar (c : Char) : List Char :=
  match c with
  | '"' => ['\\', '"']
  | '\\' => ['\\', '\\']
  | '\n' => ['\\', 'n']
  | '\r' => ['\\', 'r']
  | '\t' => ['\\', 't']
  | '\x08' => ['\\', 'b']
  | '\x0c' => ['\\', 'f']
  | c => if 0x20 ≤ c.toNat && c.toNat < 0x7f then [c] else unitEscape c

def quote (s : String) : List Char := ['"'] ++ s.toList.flatMap quotedChar ++ ['"']

mutual

def writeChars : Json → List Char
  | .null => ['n', 'u', 'l', 'l']
  | .bool true => ['t', 'r', 'u', 'e']
  | .bool false => ['f', 'a', 'l', 's', 'e']
  | .number n => (n.write Number.document).toList
  | .text s => quote s
  | .array items => ['['] ++ writeItems items ++ [']']
  | .object members => ['{'] ++ writeMembers members ++ ['}']

def writeItems : List Json → List Char
  | [] => []
  | [x] => writeChars x
  | x :: xs => writeChars x ++ [',', ' '] ++ writeItems xs

def writeMembers : Members → List Char
  | [] => []
  | [(k, x)] => quote k ++ [':', ' '] ++ writeChars x
  | (k, x) :: rest => quote k ++ [':', ' '] ++ writeChars x ++ [',', ' '] ++ writeMembers rest

end

def write (v : Json) : String := String.ofList (writeChars v)

/-! ## Sorted members -/

def sortByName (members : Members) : Members := members.mergeSort fun a b => a.1 ≤ b.1

mutual

/-- The value with the members of every object in ascending order of their names. -/
def sorted : Json → Json
  | .array items => .array (sortedItems items)
  | .object members => .object (sortByName (sortedMembers members))
  | v => v

def sortedItems : List Json → List Json
  | [] => []
  | x :: xs => sorted x :: sortedItems xs

def sortedMembers : Members → Members
  | [] => []
  | (k, x) :: rest => (k, sorted x) :: sortedMembers rest

end

def writeSorted (v : Json) : String := write (sorted v)

/-- The sorted text of a value, unless it has a number that is too long. -/
def document? (v : Json) : Option String := if v.isWritable then some v.writeSorted else none

end EventFlow.Json
