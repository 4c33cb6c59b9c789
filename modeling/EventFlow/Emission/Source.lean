import EventFlow.Emission.Builders
import EventFlow.Emission.Flow
import EventFlow.Emission.Imports
import EventFlow.Emission.Message
import EventFlow.Model.Integration

/-!
The source text of a model.

The sections are the imports, the messages, the builders and the flows, with an empty line between
them. The flows are rendered first, and what they use decides on the imports and the builders.
-/

namespace EventFlow.Emission

variable {τ β ν : Type} [Leaf τ] [Leaf β] [Leaf ν]

/-- No name may occur twice; `fault` names those that do. -/
def checkNames (fault : List String → Fault) (names : List Json) : Except Fault Unit :=
  match Json.repeated names with
  | [] => .ok ()
  | twice => do throw (fault (Text.ascending (← listedNames twice)))

/-- A model is rendered only if no two messages and no two integrations have one name. -/
def checkModel (model : Model τ β ν) : Except Fault Unit := do
  checkNames .duplicateMessages (model.messages.map fun m => Leaf.value m.name)
  checkNames .duplicateIntegrations (model.integrations.map fun i => Leaf.value i.name)

def exchangeFault : ExchangeFault → Fault
  | .stateNotSource => .stateNotSource
  | .names => .namesNotListed

/-- The types that the flows exchange with integrations and the model does not declare. -/
def foreignTypes (model : Model τ β ν) : Except Fault (List String) := do
  let names ← model.integrationTypes.mapError exchangeFault
  let declared := model.messages.map fun m => Leaf.value m.name
  listedNames (names.filter fun name => !Json.isIn declared name)

/-- The declaration of the builders, if any message is used; it is itself a use of a function. -/
def buildersFor (u : Usage) : Usage × List String :=
  if u.hasMessages then (u.function "createBuilders", builderLines u.events u.commands u.states)
  else (u, [])

/-- Sections with an empty line between them; empty sections are left out. -/
def joinSections (sections : List (List String)) : String :=
  Text.joinWith "\n\n" ((sections.filter (fun s => !s.isEmpty)).map Text.unlines) ++ "\n"

/-- The source text of a model. -/
def generate (config : Config) (model : Model τ β ν) : Except Fault String := do
  checkModel model
  let (flows, usage) := (model.flows.mapM (flowLines model)).run {}
  let flows ← flows
  let types ← model.messages.mapM messageLines
  let (usage, builders) := buildersFor usage
  let foreign ← foreignTypes model
  let imports ← importLines config usage.functions (model.messages.map (·.kind))
    model.integrations foreign
  return joinSections ([imports] ++ types ++ [builders] ++ flows)

end EventFlow.Emission
