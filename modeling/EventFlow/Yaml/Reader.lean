import EventFlow.Yaml.Flow

/-!
Reading documents in YAML.

A document is a list of lines, each with its indentation; blank lines and comments do not count.
The lines of a block have one indentation, and those of a block in it have more, but for a list,
which may stand right under its key. The part of a line after a dash is read as if it stood on a
line of its own, as far in as it is.
-/

namespace EventFlow.Yaml

structure Line where
  indent : Nat
  text : List Char

/-! ## Lines -/

def lineOf (cs : List Char) : Line :=
  let blanks := cs.takeWhile (· = ' ')
  ⟨blanks.length, Text.dropTrailingBlanks (cs.drop blanks.length)⟩

/-- Whether a text has nothing to say. -/
def isVoidText (cs : List Char) : Bool :=
  match cs with
  | [] => true
  | c :: _ => c = '#'

/-- The lines of the document: from the mark of its start, if there is one, up to that of its
end. -/
def documentLines (source : String) : List Line :=
  let lines := ((Text.cut '\n' source.toList).map lineOf).filter fun l => !isVoidText l.text
  let lines := match lines with
    | [] => []
    | first :: rest =>
      match Text.stripStart "---".toList first.text with
      | some [] => rest
      | some (c :: more) =>
        if isGapChar c then ⟨0, Text.dropBlanks more⟩ :: rest else first :: rest
      | none => first :: rest
  lines.takeWhile fun l => l.text ≠ "...".toList

/-! ## Parts of a line -/

/-- Whether an item of a list starts here. -/
def isItem (cs : List Char) : Bool :=
  match cs with
  | '-' :: rest => gapAhead rest
  | _ => false

/-- The key of an entry and the text after its colon, if the line is an entry. -/
def entry? (cs : List Char) : Except Fault (Option (String × List Char)) :=
  match quoted? cs with
  | some r => do
    let (key, after) ← r
    match after.dropWhile isSpace with
    | ':' :: rest => return if gapAhead rest then some (key, Text.dropBlanks rest) else none
    | _ => return none
  | none =>
    if plainStarts false cs then
      match plainScalar false cs with
      | (key, ':' :: rest) => .ok (some (keyText (plainValue key), Text.dropBlanks rest))
      | _ => .ok none
    else .ok none

/-- After a value, only a comment may follow on the line. -/
def endsLine (cs : List Char) : Bool := (skipGaps 'x' cs).isEmpty

/-- A plain scalar over several lines: the first, and those after it that are indented enough. -/
def continued (least : Nat) (taken : List Char) : List Line → Except Fault (List Char × List Line)
  | [] => .ok (taken, [])
  | line :: rest =>
    if line.indent < least then .ok (taken, line :: rest)
    else
      match plainScalar false line.text with
      | (more, []) => continued least (taken ++ [' '] ++ more) rest
      | (more, '#' :: _) => .ok (taken ++ [' '] ++ more, rest)
      | _ => .error .badToken

/-- A value that starts within a line; `rest` are the lines after it. -/
def inlineValue (least : Nat) (cs : List Char) (rest : List Line) :
    Except Fault (Json × List Line) :=
  match quoted? cs with
  | some r => do
    let (s, after) ← r
    if endsLine after then return (.text s, rest) else throw .badStructure
  | none =>
    if cs.head? = some '[' || cs.head? = some '{' then do
      let joined := (cs :: rest.map (·.text)).flatMap (· ++ ['\n'])
      let (v, after) ← flowValue (2 * joined.length + 2) joined
      let (tail, below) := (after.takeWhile (· ≠ '\n'), after.dropWhile (· ≠ '\n'))
      if endsLine tail then return (v, rest.drop (rest.length + 1 - below.count '\n'))
      else throw .badStructure
    else if plainStarts false cs then
      match plainScalar false cs with
      | (taken, []) => do
        let (taken, rest) ← continued least taken rest
        return (plainValue taken, rest)
      | (taken, '#' :: _) => .ok (plainValue taken, rest)
      | _ => .error .badToken
    else
      match cs with
      | ',' :: _ | ']' :: _ | '}' :: _ => .error .badStructure
      | _ => .error .badToken

/-! ## Blocks -/

mutual

/-- The value of the lines that are indented at least so far; none of them is null. -/
def block : (fuel : Nat) → (least : Nat) → List Line → Except Fault (Json × List Line)
  | 0, _, _ => .error .badStructure
  | _ + 1, _, [] => .ok (.null, [])
  | fuel + 1, least, line :: rest =>
    if line.indent < least then .ok (.null, line :: rest)
    else if isItem line.text then do
      let (items, rest) ← blockItems fuel line.indent (line :: rest)
      return (.array items, rest)
    else do
      match ← entry? line.text with
      | some _ => do
        let (members, rest) ← blockMembers fuel line.indent (line :: rest)
        return (.object (Json.ofPairs members), rest)
      | none => inlineValue least line.text rest

/-- The items of a list whose dashes stand that far in. -/
def blockItems : (fuel : Nat) → (indent : Nat) → List Line → Except Fault (List Json × List Line)
  | 0, _, _ => .error .badStructure
  | _ + 1, _, [] => .ok ([], [])
  | fuel + 1, indent, line :: rest =>
    if indent < line.indent then .error .badStructure
    else if line.indent = indent && isItem line.text then do
      let after := line.text.drop 1
      let content := Text.dropBlanks after
      let own := if isVoidText content then []
        else [⟨indent + 1 + (after.length - content.length), content⟩]
      let (v, rest) ← block fuel (indent + 1) (own ++ rest)
      let (vs, rest) ← blockItems fuel indent rest
      return (v :: vs, rest)
    else .ok ([], line :: rest)

/-- The entries of a mapping whose keys stand that far in. -/
def blockMembers : (fuel : Nat) → (indent : Nat) → List Line →
    Except Fault (Json.Members × List Line)
  | 0, _, _ => .error .badStructure
  | _ + 1, _, [] => .ok ([], [])
  | fuel + 1, indent, line :: rest =>
    if indent < line.indent then .error .badStructure
    else if line.indent < indent then .ok ([], line :: rest)
    else if isItem line.text then .error .badStructure
    else do
      match ← entry? line.text with
      | none => throw .badToken
      | some (key, value) => do
        let (v, rest) ← blockEntryValue fuel indent value rest
        let (more, rest) ← blockMembers fuel indent rest
        return ((key, v) :: more, rest)

/-- The value of an entry: on its line, below it, or null. -/
def blockEntryValue : (fuel : Nat) → (indent : Nat) → (value : List Char) → List Line →
    Except Fault (Json × List Line)
  | 0, _, _, _ => .error .badStructure
  | fuel + 1, indent, value, rest =>
    if !isVoidText value then inlineValue (indent + 1) value rest
    else
      match rest with
      | [] => .ok (.null, [])
      | line :: _ =>
        if line.indent = indent && isItem line.text then do
          let (items, rest) ← blockItems fuel indent rest
          return (.array items, rest)
        else block fuel (indent + 1) rest

end

/-- The value of a document; an empty one is null. -/
def read (source : String) : Except Fault Json := do
  let lines := documentLines source
  let (v, rest) ← block (2 * source.length + 2) 0 lines
  if rest.isEmpty then return v else throw .badStructure

end EventFlow.Yaml
