/-!
Lines and pieces of text: cutting at a character, joining with a separator.

Cutting and joining are inverse to each other when no piece holds the separator.
-/

namespace EventFlow.Text

/-- The pieces between the occurrences of `sep`; there is always one more piece than separators. -/
def cut (sep : Char) : List Char → List (List Char)
  | [] => [[]]
  | c :: rest =>
    if c = sep then [] :: cut sep rest
    else match cut sep rest with
      | [] => [[c]]
      | piece :: pieces => (c :: piece) :: pieces

def lines (s : String) : List String := (cut '\n' s.toList).map String.ofList

def joinWith (sep : String) : List String → String
  | [] => ""
  | [s] => s
  | s :: rest => s ++ sep ++ joinWith sep rest

def unlines (ls : List String) : String := joinWith "\n" ls

/-- The text before the first occurrence of `sep` and the text after it. -/
def splitFirst (sep : Char) (cs : List Char) : List Char × List Char :=
  (cs.takeWhile (· ≠ sep), (cs.dropWhile (· ≠ sep)).drop 1)

/-- The text after `start`, if the text begins with it. -/
def stripStart : (start : List Char) → List Char → Option (List Char)
  | [], cs => some cs
  | _ :: _, [] => none
  | s :: start, c :: cs => if s = c then stripStart start cs else none

def startsWith (start : String) (cs : List Char) : Bool :=
  (stripStart start.toList cs).isSome

def endsWith (ending : String) (cs : List Char) : Bool :=
  (stripStart ending.toList.reverse cs.reverse).isSome

/-- Whether `part` occurs in the text. -/
def contains (part : String) : List Char → Bool
  | [] => part.isEmpty
  | c :: rest => startsWith part (c :: rest) || contains part rest

/-- Every occurrence of `old`, from the left, becomes `new`; `fuel` bounds the text's length. -/
def replaceWithin (old new : List Char) : (fuel : Nat) → List Char → List Char
  | 0, cs => cs
  | _ + 1, [] => []
  | fuel + 1, c :: rest =>
    match stripStart old (c :: rest) with
    | some after => new ++ replaceWithin old new fuel after
    | none => c :: replaceWithin old new fuel rest

/-- Every occurrence of the non-empty text `old`, from the left, becomes `new`. -/
def replaceAll (old new : String) (cs : List Char) : List Char :=
  replaceWithin old.toList new.toList cs.length cs

end EventFlow.Text
