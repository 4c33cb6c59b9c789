import EventFlow.Complaint
import EventFlow.Text.Blank
import EventFlow.Text.Line
import EventFlow.Token.Basic
import EventFlow.Token.Literal

/-!
From source text to tokens.

A text is cut into pieces, one after the other and without gaps: blanks, remarks to the end of a
line, comments, and lexemes. The tokens are the lexemes in order, each with the last doc comment
that stands between it and the lexeme before it; a last token marks the end of the text.
-/

namespace EventFlow.Token

/-- A piece of source text. -/
inductive Piece where
  | blank
  | remark
  | comment (raw : String)
  | lexeme (lexeme : Lexeme)
  deriving DecidableEq, Repr

structure Placed where
  piece : Piece
  start : Cursor
  stop : Cursor
  deriving DecidableEq, Repr

/-! ## One piece -/

def isNameStart (c : Char) : Bool := c.isAlpha || c = '_' || c = '$'

def isNamePart (c : Char) : Bool := c.isAlphanum || c = '_' || c = '$'

/-- The marks of more than one character, in the order in which they are tried. -/
def longMarks : List String := ["...", "=>", "?.", "??"]

/-- The marks of one character. -/
def shortMarks : List Char := "{}()[];,:.<>=?|&+-*/!%@^~".toList

/-- How many characters stand before and in the closing mark of a comment. -/
def commentEnd? : List Char → Option Nat
  | [] => none
  | [_] => none
  | a :: b :: rest =>
    if a = '*' && b = '/' then some 2 else (commentEnd? (b :: rest)).map (· + 1)

def punctAt? (cs : List Char) : Option String :=
  match longMarks.find? (Text.startsWith · cs) with
  | some mark => some mark
  | none => match cs with
    | c :: _ => if shortMarks.contains c then some (String.singleton c) else none
    | [] => none

/-- A number starts with a digit, or with a point and a digit. -/
def startsNumber (c : Char) (rest : List Char) : Bool :=
  Text.isDigit c || (c = '.' && rest.head?.any Text.isDigit)

/-- The lexeme at the front of `c :: rest`, and how many characters it takes. -/
def lexemeAt (c : Char) (rest : List Char) : Except (Fault × Nat) (Lexeme × Nat) :=
  if c = '\'' || c = '"' then do
    let (value, taken) ← readString c (c :: rest)
    return (.text value, taken)
  else if c = '`' then do
    let (value, marked, taken) ← readTemplate (c :: rest)
    return (.template value marked, taken)
  else if startsNumber c rest then
    match readNumber (c :: rest) with
    | .ok (value, taken) => .ok (.number value, taken)
    | .error fault => .error (fault, 0)
  else if isNameStart c then
    let name := c :: rest.takeWhile isNamePart
    .ok (.identifier (String.ofList name), name.length)
  else
    match punctAt? (c :: rest) with
    | some mark => .ok (.punct mark, mark.length)
    | none => .error (.unexpectedCharacter c, 0)

/-- The piece at the front of `c :: rest`, and how many characters it takes. -/
def pieceAt (c : Char) (rest : List Char) : Except (Fault × Nat) (Piece × Nat) :=
  if Text.isBlank c then .ok (.blank, 1)
  else if c = '/' && rest.head? = some '/' then
    .ok (.remark, ((c :: rest).takeWhile (· ≠ '\n')).length)
  else if c = '/' && rest.head? = some '*' then
    match commentEnd? (rest.drop 1) with
    | some n => .ok (.comment (String.ofList ((c :: rest).take (n + 2))), n + 2)
    | none => .error (.unterminatedComment, 0)
  else do
    let (lexeme, taken) ← lexemeAt c rest
    return (.lexeme lexeme, taken)

/-! ## All pieces -/

/-- The pieces of a text that begins at a place. -/
def pieces (here : Cursor) : List Char → Except (Complaint Fault) (List Placed)
  | [] => .ok []
  | c :: rest =>
    match pieceAt c rest with
    | .error (fault, n) => .error ⟨fault, some (here.advance ((c :: rest).take n)).line, none⟩
    | .ok (piece, n) =>
      let stop := here.advance ((c :: rest).take n)
      do
        let more ← pieces stop (rest.drop (n - 1))
        return ⟨piece, here, stop⟩ :: more
termination_by cs => cs.length

/-- A comment that documents what follows it. -/
def isDoc (raw : String) : Bool := Text.startsWith "/**" raw.toList && raw ≠ "/**/"

/-- The tokens of some pieces, given the doc comment before them and the place where they end. -/
def ofPieces (stop : Cursor) (doc : Option String) : List Placed → List Token
  | [] => [⟨.eof, stop, stop.offset, doc⟩]
  | p :: rest =>
    match p.piece with
    | .lexeme lexeme => ⟨lexeme, p.start, p.stop.offset, doc⟩ :: ofPieces stop none rest
    | .comment raw => ofPieces stop (if isDoc raw then some raw else doc) rest
    | .blank | .remark => ofPieces stop doc rest

/-- The tokens of a text whose first line has the given number. -/
def tokenizeFrom (line : Nat) (source : List Char) : Except (Complaint Fault) (List Token) := do
  let placed ← pieces (.start line) source
  return ofPieces ((Cursor.start line).advance source) none placed

def tokenize (source : String) : Except (Complaint Fault) (List Token) :=
  tokenizeFrom 1 source.toList

end EventFlow.Token
