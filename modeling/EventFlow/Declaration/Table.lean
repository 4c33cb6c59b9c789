import EventFlow.Declaration.Alias
import EventFlow.Declaration.Basic
import EventFlow.Declaration.Message
import EventFlow.Token.Scan

/-!
All that the type declarations of one text say: its messages, and the names that stand for them.
-/

namespace EventFlow

/-- Messages in order of declaration, the types that declare them, the aliases that lead to a
message, and the lines of the comments above declarations. -/
structure Declared where
  messages : List Message := []
  types : Declaration.Names := []
  aliases : Declaration.Names := []
  docLines : List Nat := []
  deriving DecidableEq, Repr

namespace Declared

def message? (d : Declared) (name : String) : Option Message :=
  d.messages.find? (·.name = name)

/-- The message that a reference stands for; a name that stands for none is left as it is. -/
def resolve (d : Declared) (name : String) : String :=
  match d.aliases.lookup name with
  | some message => message
  | none => if (d.message? name).isSome then name else (d.types.lookup name).getD name

end Declared

namespace Declaration

/-- What has been read of the declarations so far; aliases are not resolved yet. -/
structure Progress where
  seen : List String := []
  messages : List Message := []
  types : Names := []
  aliases : Names := []
  docLines : List Nat := []

/-- The source text of a declaration. -/
def sourceOf (lines : List String) (d : Declaration) : List Char :=
  (Text.unlines ((lines.drop d.start).take (d.stop + 1 - d.start))).toList

/-- The lines of a leading comment. -/
def docLinesOf (doc : Option LeadingDoc) : List Nat :=
  match doc with
  | some doc => (List.range (doc.stop + 1 - doc.start)).map (doc.start + ·)
  | none => []

/-- What a declaration adds to the progress. -/
def Progress.add (p : Progress) (d : Declaration) (doc : Option LeadingDoc) (m : Meaning) :
    Result Progress :=
  let p := { p with seen := d.name :: p.seen, docLines := p.docLines ++ docLinesOf doc }
  match m with
  | .other => .ok p
  | .sameAs target => .ok { p with aliases := p.aliases ++ [(d.name, target)] }
  | .message m =>
    if p.messages.any (·.name = m.name) then
      .error ⟨.duplicateMessage m.name, some (d.start + 1), none⟩
    else
      .ok { p with messages := p.messages ++ [m], types := p.types ++ [(d.name, m.name)] }

/-- Reads one more declaration. -/
def readOne (depth : Nat) (lines : List String) (p : Progress) (d : Declaration) :
    Result Progress :=
  let line := d.start + 1
  if !d.terminated then .error ⟨.unterminated d.name, some line, none⟩
  else if p.seen.contains d.name then .error ⟨.duplicateType d.name, some line, none⟩
  else
    let doc := leadingDoc? lines d.start
    let source := sourceOf lines d
    match Token.tokenizeFrom line source with
    | .error c => .error (c.map .lexical)
    | .ok tokens => do
      let m ← meaning depth source (doc.map (·.raw)) tokens
      p.add d doc m

def AliasError.toFault : AliasError → Fault
  | .circular names => .circular names
  | .tooLong => .nesting

/-- The aliases that lead to a message, with the message's name. -/
def resolveAll (depth : Nat) (p : Progress) : Result Names :=
  p.aliases.foldlM (fun resolved (name, _) =>
    match resolveAlias p.aliases p.types (p.messages.map (·.name)) depth [] name with
    | .error e => .error ⟨e.toFault, none, none⟩
    | .ok none => .ok resolved
    | .ok (some message) => .ok (resolved ++ [(name, message)])) []

/-- All that the given declarations say. Default values may nest, and aliases follow each other,
`depth` levels deep. -/
def table (depth : Nat) (lines : List String) (ds : List Declaration) : Result Declared := do
  let p ← ds.foldlM (readOne depth lines) {}
  let aliases ← resolveAll depth p
  return ⟨p.messages, p.types, aliases, p.docLines⟩

end Declaration

end EventFlow
