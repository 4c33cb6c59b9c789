/-!
Blanks, and the operations on text that they define.

A blank separates words: the ASCII spaces and line breaks, the information separators, and the
spaces of Unicode. `squeeze` writes a text with single spaces between its words and none around
them.
-/

namespace EventFlow.Text

def isBlank (c : Char) : Bool :=
  let n := c.toNat
  (0x09 ≤ n && n ≤ 0x0d) || (0x1c ≤ n && n ≤ 0x20) || n == 0x85 || n == 0xa0 || n == 0x1680 ||
    (0x2000 ≤ n && n ≤ 0x200a) || n == 0x2028 || n == 0x2029 || n == 0x202f || n == 0x205f ||
    n == 0x3000

/-! ## Trimming -/

def dropBlanks (cs : List Char) : List Char := cs.dropWhile isBlank

def dropTrailingBlanks (cs : List Char) : List Char := (cs.reverse.dropWhile isBlank).reverse

def trimChars (cs : List Char) : List Char := dropTrailingBlanks (dropBlanks cs)

def trimStart (s : String) : String := String.ofList (dropBlanks s.toList)

def trimEnd (s : String) : String := String.ofList (dropTrailingBlanks s.toList)

def trim (s : String) : String := String.ofList (trimChars s.toList)

/-! ## Words -/

/-- Every run of blanks becomes one space; `inRun` says that the run has begun. -/
def collapse (inRun : Bool) : List Char → List Char
  | [] => []
  | c :: rest =>
    if isBlank c then
      if inRun then collapse true rest else ' ' :: collapse true rest
    else c :: collapse false rest

/-- Single spaces between words, none around them. -/
def squeeze (s : String) : String :=
  String.ofList (trimChars (collapse false s.toList))

end EventFlow.Text
