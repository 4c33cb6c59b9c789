import EventFlow.Declaration.Table
import EventFlow.Extraction.Literal
import EventFlow.Message.Inference
import EventFlow.Text.Order

/-!
What is found on the way through a program.

Beside the flows themselves, a program tells which integrations it imports and refers to, and by
its examples what the messages look like that it does not declare. Such a message is kept as a
stub, at the place of its first example and with the fields of the first example that has most:

    (noteStub m stubs).map name = stubs.map name, with m.name at the end if it is new
-/

namespace EventFlow.Extraction

structure Findings where
  imported : List Integration := []
  systems : List String := []
  stubs : List Message := []
  flowNames : List String := []
  deriving DecidableEq, Repr

/-- A step through the program: it adds to the findings or complains. -/
abbrev Walk := StateT Findings (Except (Complaint Fault))

def refuse {α : Type} (line : Nat) (fault : Fault) : Walk α := throw ⟨fault, some line, none⟩

/-- Complaints of a step say that they arose in the slice. -/
def inSlice {α : Type} (name : String) (step : Walk α) : Walk α := fun findings =>
  match step findings with
  | .ok r => .ok r
  | .error c => .error { c with slice := some name }

/-! ## Integrations -/

def noteSystems (names : List String) : Walk Unit :=
  modify fun f => { f with systems := names.foldl Text.mention f.systems }

/-- The integration that a name stands for when nothing imports it. -/
def standardIntegration (name : String) : Integration :=
  { name := name
    source := "@auto-engineer/" ++ String.ofList (name.toList.map Char.toLower) ++ "-integration"
    description := some (name ++ " integration") }

/-- The integrations of a program: those that it imports, and those that it only refers to. -/
def Findings.integrations (f : Findings) : List Integration :=
  let names := f.imported.map (·.name)
  f.imported ++ (f.systems.filter (fun name => !names.contains name)).map standardIntegration

/-! ## Stubs -/

/-- Adds a stub, or puts it in the place of the one of its name if it has more fields. -/
def noteStub (stub : Message) : List Message → List Message
  | [] => [stub]
  | m :: rest =>
    if m.name = stub.name then
      (if m.fields.length < stub.fields.length then stub else m) :: rest
    else m :: noteStub stub rest

/-- The kind that the message of a name is known to have. -/
def knownKind? (declared : Declared) (stubs : List Message) (ref : String) :
    Option MessageKind :=
  match declared.message? ref with
  | some m => some m.kind
  | none => (stubs.find? (·.name = ref)).map (·.kind)

/-- Notes that a message is used as one of that kind, with the data of an example. -/
def noteMessage (declared : Declared) (line : Nat) (ref : String) (kind : MessageKind)
    (data : Json.Members) : Walk Unit := do
  let findings ← get
  match knownKind? declared findings.stubs ref with
  | some known => if known ≠ kind then refuse line (.messageKind ref known kind)
  | none => pure ()
  if (declared.message? ref).isNone then
    set { findings with stubs := noteStub (Message.infer ref kind data) findings.stubs }

end EventFlow.Extraction
