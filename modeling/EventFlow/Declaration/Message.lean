import EventFlow.Complaint
import EventFlow.Declaration.Fault
import EventFlow.DocComment
import EventFlow.Message.Basic
import EventFlow.Token.Basic

/-!
What a single type declaration says: a message, an alias of another type, or nothing of interest.

    type Name = Event<'Name', { field: type; other?: type }>;
    type Name = Other;
-/

namespace EventFlow.Declaration

/-- What a declaration stands for. -/
inductive Meaning where
  | message (message : Message)
  | sameAs (target : String)
  | other
  deriving DecidableEq, Repr

abbrev Result (α : Type) := Except (Complaint Fault) α

abbrev Tokens := List Token

namespace Tokens

def fail {α : Type} (ts : Tokens) (fault : Fault) : Result α :=
  .error ⟨fault, ts.head?.map (·.line), none⟩

def isPunct (ts : Tokens) (mark : String) : Bool := ts.head?.any (·.isPunct mark)

def isName (ts : Tokens) (name : String) : Bool := ts.head?.any (·.isName name)

def cited (ts : Tokens) : String := (ts.head?.map (·.lexeme.cited)).getD "None"

/-- A complaint that cites the first token; a number that is too long cannot be cited. -/
def failCiting {α : Type} (ts : Tokens) (fault : String → Fault) : Result α :=
  let isLong := (ts.head?.bind (·.number?)).any Number.isLong
  ts.fail (if isLong then .longNumber else fault ts.cited)

def next (ts : Tokens) : Tokens := ts.tail

end Tokens

/-! ## Brackets and types -/

def isOpening (mark : String) : Bool := [r"{", "[", "(", "<"].contains mark

def isClosing (mark : String) : Bool := [r"}", "]", ")", ">"].contains mark

/-- What follows a group of brackets, `depth` of which are open. -/
def afterBrackets (depth : Nat) : Tokens → Result Tokens
  | [] => .error ⟨.unbalanced, none, none⟩
  | t :: rest =>
    match t.lexeme with
    | .eof => Tokens.fail (t :: rest) .unbalanced
    | .punct mark =>
      if isOpening mark then afterBrackets (depth + 1) rest
      else if isClosing mark then
        if depth = 1 then .ok rest else afterBrackets (depth - 1) rest
      else afterBrackets depth rest
    | _ => afterBrackets depth rest

/-- The tokens of a field's type and those after it: it ends before a semicolon, a comma or a
closing brace outside all brackets. -/
def typeTokens (depth : Int) : Tokens → Result (Tokens × Tokens)
  | [] => .error ⟨.unterminatedFields, none, none⟩
  | t :: rest =>
    match t.lexeme with
    | .eof => Tokens.fail (t :: rest) .unterminatedFields
    | .punct mark =>
      if depth = 0 && [";", ",", r"}"].contains mark then .ok ([], t :: rest)
      else do
        let depth :=
          if isOpening mark then depth + 1 else if isClosing mark then depth - 1 else depth
        let (type, rest) ← typeTokens depth rest
        return (t :: type, rest)
    | _ => do
      let (type, rest) ← typeTokens depth rest
      return (t :: type, rest)

/-- The source text of some tokens, with single spaces for blanks. -/
def typeText (source : List Char) (ts : Tokens) : String :=
  match ts.head?, ts.getLast? with
  | some first, some last =>
    let start := first.start.offset
    Text.squeeze (String.ofList ((source.drop start).take (last.stop - start)))
  | _, _ => ""

/-! ## Fields -/

/-- The name of a field. -/
def fieldName? (t : Token) : Option String :=
  match t.lexeme with
  | .identifier name => some name
  | .text value => some value
  | _ => none

/-- The description and the default value that a doc comment gives a field. -/
def fieldDoc (depth : Nat) (name : String) (token : Token) : Result (Option String × Json) :=
  match token.doc with
  | none => .ok (none, .null)
  | some raw =>
    let (description, tags) := DocComment.parse raw
    match DocComment.tagValue? "default" tags with
    | none => .ok (description, .null)
    | some text =>
      match Json.readWithin depth text.toList with
      | .ok value => .ok (description, value)
      | .error .tooDeep => .error ⟨.nesting, none, none⟩
      | .error error => .error ⟨.badDefault name error, some token.line, none⟩

/-- One field, whose name is none of those `seen`. -/
def field (depth : Nat) (source : List Char) (seen : List String) (ts : Tokens) :
    Result (Field × Tokens) :=
  match ts.head?.bind fun t => (fieldName? t).map ((t, ·)) with
  | none => ts.failCiting .unexpectedField
  | some (token, name) =>
    if seen.contains name then ts.fail (.duplicateField name)
    else do
      let required := !ts.next.isPunct "?"
      let rest := if required then ts.next else ts.next.next
      if !rest.isPunct ":" then rest.fail (.expectedColon name)
      else do
        let (type, rest) ← typeTokens 0 rest.next
        let text := typeText source type
        if text.isEmpty then ts.fail (.missingType name)
        else do
          let (description, value) ← fieldDoc depth name token
          let rest := if rest.isPunct ";" || rest.isPunct "," then rest.next else rest
          return (⟨name, text, required, description, value⟩, rest)

/-- The fields up to the closing brace; `fuel` bounds their number. -/
def fields (depth : Nat) (source : List Char) : (fuel : Nat) → List String → Tokens →
    Result (List Field)
  | 0, _, ts => ts.fail .unterminatedFields
  | fuel + 1, seen, ts =>
    if ts.isPunct r"}" then .ok []
    else do
      let (first, rest) ← field depth source seen ts
      let more ← fields depth source fuel (first.name :: seen) rest
      return first :: more

/-! ## Messages -/

/-- The version that a tag gives. -/
def version (type : String) (line : Nat) (text : String) : Result Int :=
  let digits := text.toList
  if digits.isEmpty || !digits.all Text.isDigit then
    .error ⟨.badVersion text type, some line, none⟩
  else if !digits.all Text.isDecimal then .error ⟨.versionNumeral text, none, none⟩
  else if Number.maxDigits < digits.length then .error ⟨.longVersion digits.length, none, none⟩
  else .ok (Text.ofDecimals digits)

/-- The description and the version that a doc comment gives a message. -/
def messageDoc (type : String) (line : Nat) (doc : Option String) :
    Result (Option String × Int) :=
  match doc with
  | none => .ok (none, 1)
  | some raw =>
    let (description, tags) := DocComment.parse raw
    match DocComment.tagValue? "version" tags with
    | none => .ok (description, 1)
    | some text => do
      let n ← version type line text
      return (description, n)

/-- The message of a declaration, from its name on. -/
def message (depth : Nat) (source : List Char) (doc : Option String) (type : String)
    (kind : MessageKind) (ts : Tokens) : Result Message :=
  match ts.head?.bind fun t => t.text?.map ((t, ·)) with
  | none => ts.fail (.messageName type)
  | some (token, name) =>
    if !ts.next.isPunct "," then ts.next.fail (.expectedComma type)
    else if !ts.next.next.isPunct r"{" then ts.next.next.fail (.inlineFields name)
    else do
      let all ← fields depth source ts.length [] ts.next.next.next
      let (description, number) ← messageDoc type token.line doc
      return ⟨name, kind, all, description, number⟩

/-- What a declaration says after its equals sign. -/
def meaningOf (depth : Nat) (source : List Char) (doc : Option String) (type : String)
    (ts : Tokens) : Result Meaning :=
  match ts.head?.bind (·.name?) with
  | none => .ok .other
  | some head =>
    let after := ts.next
    match if after.isPunct "<" then MessageKind.ofTypeName? head else none with
    | some kind => do
      let m ← message depth source doc type kind after.next
      return .message m
    | none =>
      if after.isPunct ";" || after.head?.all (·.isEof) then .ok (.sameAs head) else .ok .other

/-- What the tokens of a declaration say; `doc` is the comment above it. -/
def meaning (depth : Nat) (source : List Char) (doc : Option String) (ts : Tokens) :
    Result Meaning := do
  let ts := (if ts.isName "export" then ts.next else ts).next
  let type := ts.cited
  let ts := ts.next
  let ts ← if ts.isPunct "<" then afterBrackets 0 ts else pure ts
  if ts.isPunct "=" then meaningOf depth source doc type ts.next
  else ts.fail (.expectedEquals type)

end EventFlow.Declaration
