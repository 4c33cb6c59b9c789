import EventFlow.Emission.Literal
import EventFlow.Emission.Single
import EventFlow.Emission.Usage

/-!
Pipeline entries as chains that start with `sink()` or `source()`.
-/

namespace EventFlow.Emission

variable {τ β ν : Type} [Leaf τ]

/-- The call of a method. -/
def methodCall (method : String) (args : List String) : String :=
  "." ++ method ++ "(" ++ Text.joinWith ", " args ++ ")"

/-- Integrations as arguments: they are declared, and their names can stand in code. -/
def systemNames (model : Model τ β ν) (systems : List τ) : Except Fault (List String) :=
  if systems.isEmpty then .error .noSystem
  else systems.mapM fun name =>
    if (model.integration? name).isNone then
      .error (.undeclaredIntegration (Leaf.value name).display)
    else identifier .integrationName name

def messageArguments : Option (IntegrationMessage τ) → Except Fault (List String)
  | some m => do
    let name ← quoted m.name
    let type ← quoted m.type
    return [name, type]
  | none => .ok []

def destinationCall (model : Model τ β ν) : Destination τ → Except Fault String
  | .stream pattern => do return methodCall "toStream" [← quoted pattern]
  | .database collection => do return methodCall "toDatabase" [← quoted collection]
  | .topic name => do return methodCall "toTopic" [← quoted name]
  | .integration systems message => do
    let names ← systemNames model systems
    let more ← messageArguments message
    return methodCall "toIntegration" (names ++ more)

/-- The query of a database as an argument, if there is one. -/
def queryArguments : Json → Except Fault (List String)
  | .null => .ok []
  | query => do return [← literal query]

def originCall (model : Model τ β ν) : Origin τ → Except Fault String
  | .projection name idField => do
    let name ← quoted name
    let idField ← quoted idField
    return methodCall "fromProjection" [name, idField]
  | .readModel name => do return methodCall "fromReadModel" [← quoted name]
  | .database collection query => do
    let collection ← quoted collection
    let query ← queryArguments query
    return methodCall "fromDatabase" (collection :: query)
  | .api endpoint method => do
    let endpoint ← quoted endpoint
    let method ← quotedOption method
    return methodCall "fromApi" (endpoint :: method)
  | .integration systems => do return methodCall "fromIntegration" (← systemNames model systems)

def instructionsCall (instructions : Option τ) : Except Fault String := do
  match ← quotedOption instructions with
  | [] => return ""
  | args => return methodCall "additionalInstructions" args

/-- The call of `sink` or `source`, and of the method that names the message. -/
def targetCall (root : String) (t : Target τ) : Except Fault String := do
  return root ++ "()" ++ methodCall t.kind.word [← quoted t.name]

/-- The chain of an entry. -/
def entryChain (model : Model τ β ν) : Entry τ → Emit String
  | .source target origin instructions => do
    useFunction "source"
    let start ← targetCall "source" target
    let call ← originCall model origin
    let more ← instructionsCall instructions
    return start ++ call ++ more
  | .sink target destination none instructions => do
    useFunction "sink"
    let start ← targetCall "sink" target
    let call ← destinationCall model destination
    let more ← instructionsCall instructions
    return start ++ call ++ more
  | .sink target destination (some state) instructions => do
    useFunction "sink"
    let start ← targetCall "sink" target
    let call ← destinationCall model destination
    let lookup ← entryChain model state
    let more ← instructionsCall instructions
    return start ++ call ++ methodCall "withState" [lookup] ++ more

/-- The statement with all entries of a slice, line by line. -/
def dataLines (model : Model τ β ν) (indent : String) (entries : List (Entry τ)) :
    Emit (List String) := do
  useFunction "data"
  let lines ← entries.mapM fun entry => do
    return indent ++ "  " ++ (← entryChain model entry) ++ ","
  return [indent ++ "data(["] ++ lines ++ [indent ++ "]);"]

end EventFlow.Emission
