import EventFlow.Complaint
import EventFlow.Extraction.Fault
import EventFlow.Json.Value
import EventFlow.Program.Basic

/-!
Literal data, texts and callbacks: what the arguments of a call denote.

A literal is a text, a number, a boolean, null, an array or an object of literals, or a date given
by its text. Of two members with one key the last one counts.
-/

namespace EventFlow.Extraction

abbrev Result (α : Type) := Except (Complaint Fault) α

def fail {α : Type} (line : Nat) (fault : Fault) : Result α := .error ⟨fault, some line, none⟩

/-! ## Data -/

mutual

/-- The data that an expression denotes. -/
def literal : Expr → Result Json
  | .text _ s => .ok (.text s)
  | .template l s substitution => if substitution then fail l .templateData else .ok (.text s)
  | .number _ n => .ok (.number n)
  | .boolean _ b => .ok (.bool b)
  | .null _ => .ok .null
  | .array _ es => do return .array (← literals es)
  | .object _ ps => do return .object (Json.ofPairs (← literalMembers ps))
  | .construct l callee args => constructed l callee args
  | .spread l _ => fail l .spreadData
  | .identifier l name => fail l (.identifierData name)
  | e => fail e.line (.notData e.kind)

def literals : List Expr → Result (List Json)
  | [] => .ok []
  | e :: es => do
    let v ← literal e
    let vs ← literals es
    return v :: vs

def literalMembers : List Property → Result Json.Members
  | [] => .ok []
  | .keyed _ key e :: ps => do
    let v ← literal e
    let vs ← literalMembers ps
    return (key, v) :: vs
  | .shorthand l key :: _ => fail l (.shorthandData key)
  | .spread l _ :: _ => fail l .spreadData

/-- A date is the only object that can be constructed, and stands for its text. -/
def constructed (line : Nat) : (callee : Expr) → (args : List Expr) → Result Json
  | .identifier _ "Date", [.text _ s] => .ok (.text s)
  | _, _ => fail line .constructedData

end

/-! ## Texts -/

/-- A text, or a template without substitutions. -/
def textOf (what : String) : Expr → Result String
  | .text _ s => .ok s
  | .template l s substitution => if substitution then fail l (.notText what) else .ok s
  | e => fail e.line (.notText what)

/-- The only argument of a method, a text. -/
def onlyText (link : Link) : Result String :=
  match link.arguments with
  | [e] => textOf s!"'.{link.method}()' argument" e
  | _ => fail link.line (.oneText link.method)

/-! ## Callbacks -/

/-- The statements of a callback; one that is a single expression has one statement. -/
def callbackBody (what : String) : Expr → Result (List Statement)
  | .block _ body => .ok body
  | .arrow l e => .ok [.expression l e none]
  | e => fail e.line (.notArrow what)

/-- The title and the statements of a call of `specs`. -/
def specsBlock (line : Nat) (args : List Expr) : Result (String × List Statement) :=
  match args with
  | [callback] => do
    return ("", ← callbackBody "specs()" callback)
  | [title, callback] => do
    let title ← textOf "specs() title" title
    return (title, ← callbackBody "specs()" callback)
  | _ => fail line .specsArguments

/-- The expression that a statement consists of. -/
def statementValue? : Statement → Option Expr
  | .expression _ e _ => some e
  | _ => none

/-- The expression of a statement, with the name of the function that it calls. -/
def calledIn? (s : Statement) : Option (String × Expr) :=
  match statementValue? s with
  | some e => e.calleeName?.map (·, e)
  | none => none

end EventFlow.Extraction
