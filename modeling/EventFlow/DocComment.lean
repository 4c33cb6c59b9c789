import EventFlow.Text.Blank
import EventFlow.Text.Line

/-!
Doc comments: free text and tags between `/**` and `*/`.

    /** text */          /**
                          * text
                          * @name value
                          */

`parse` reads a comment and `format` writes one. A line of text that would read as a tag, or hold
the end of the comment, is written with a backslash that `parse` takes away again. A line after a
tag continues its value.
-/

namespace EventFlow

open Text

structure Tag where
  name : String
  value : String
  deriving DecidableEq, Repr

namespace DocComment

/-! ## Escaping -/

/-- The first occurrence of `old` becomes `new`. -/
def replaceFirst (old new : List Char) : List Char → List Char
  | [] => []
  | c :: rest =>
    match stripStart old (c :: rest) with
    | some after => new ++ after
    | none => c :: replaceFirst old new rest

/-- A line of text as a comment holds it. -/
def escapeLine (line : List Char) : List Char :=
  let line := replaceAll "*/" "*\\/" line
  if startsWith "@" (dropBlanks line) then replaceFirst ['@'] ['\\', '@'] line else line

/-- The line of text that a comment holds. -/
def unescapeLine (line : List Char) : List Char :=
  let line :=
    if startsWith "\\@" (dropBlanks line) then replaceFirst ['\\', '@'] ['@'] line
    else line
  replaceAll "*\\/" "*/" line

/-! ## Reading -/

/-- What stands between the delimiters of a comment. -/
def inner (raw : List Char) : List Char :=
  let body := trimChars raw
  let body := (stripStart "/**".toList body).getD body
  if endsWith "*/" body then body.take (body.length - 2) else body

/-- A line of a longer comment without the star that leads it and one space after it. -/
def unstarred (line : List Char) : List Char :=
  let line := trimChars line
  let line := match line with
    | '*' :: ' ' :: rest => rest
    | '*' :: rest => rest
    | _ => line
  dropTrailingBlanks line

def contentLines (raw : List Char) : List (List Char) :=
  let body := inner raw
  if body.contains '\n' then (cut '\n' body).map unstarred else [trimChars body]

/-- The tag that a line after its `@` denotes. -/
def tagOf (line : List Char) : Tag :=
  let (name, value) := splitFirst ' ' line
  ⟨String.ofList name, String.ofList (trimChars value)⟩

/-- The tag with one more line of value. -/
def continued (tag : Tag) (line : List Char) : Tag :=
  let value := tag.value.toList ++ [' '] ++ trimChars line
  ⟨tag.name, String.ofList (trimChars value)⟩

/-- The tags of some lines, the first of which continues `tag`. -/
def tagsAfter (tag : Tag) : List (List Char) → List Tag
  | [] => [tag]
  | ('@' :: rest) :: lines => tag :: tagsAfter (tagOf rest) lines
  | [] :: lines => tagsAfter tag lines
  | line :: lines => tagsAfter (continued tag line) lines

/-- The lines of text before the first tag, and the tags. -/
def split : List (List Char) → List (List Char) × List Tag
  | [] => ([], [])
  | ('@' :: rest) :: lines => ([], tagsAfter (tagOf rest) lines)
  | line :: lines =>
    let (text, tags) := split lines
    (unescapeLine line :: text, tags)

/-- The lines without empty ones at either end. -/
def dropEmptyEnds (lines : List (List Char)) : List (List Char) :=
  ((lines.dropWhile List.isEmpty).reverse.dropWhile List.isEmpty).reverse

/-- The free text of a comment, if there is any, and its tags in order. -/
def parse (raw : String) : Option String × List Tag :=
  let (text, tags) := split (contentLines raw.toList)
  match dropEmptyEnds text with
  | [] => (none, tags)
  | lines => (some (unlines (lines.map String.ofList)), tags)

/-- The value of the first tag of that name. -/
def tagValue? (name : String) (tags : List Tag) : Option String :=
  (tags.find? (·.name = name)).map (·.value)

/-! ## Writing -/

def tagLine (tag : Tag) : List Char :=
  dropTrailingBlanks (['@'] ++ tag.name.toList ++ [' '] ++ tag.value.toList)

/-- The text of a comment; an empty text counts as none. -/
def textLines (text : Option String) : List (List Char) :=
  match text with
  | some s => if s.isEmpty then [] else (cut '\n' s.toList).map escapeLine
  | none => []

/-- The lines of a comment, each with `indent` before it; none if there is nothing to say. -/
def format (text : Option String) (tags : List Tag) (indent : String) : List String :=
  let said := textLines text
  match said ++ tags.map tagLine with
  | [] => []
  | [line] => [indent ++ "/** " ++ String.ofList line ++ " */"]
  | lines =>
    [indent ++ "/**"] ++
      lines.map (fun line => trimEnd (indent ++ " * " ++ String.ofList line)) ++
      [indent ++ " */"]

end DocComment

end EventFlow
