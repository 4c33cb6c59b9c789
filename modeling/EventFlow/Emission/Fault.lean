import EventFlow.Json.Shown
import EventFlow.Model.Basic
import EventFlow.Number.Numeral
import EventFlow.Text.Line

/-!
Why a model has no source text.
-/

namespace EventFlow.Emission

inductive Fault where
  | notFinite (value : Double)
  | undeclaredMessage (ref : String)
  | wrongKind (ref : String) (found wanted : MessageKind)
  | messageName (name : String)
  | commandWhen
  | reactWhen
  | queryWhen
  | errorOutcome
  | noSystem
  | undeclaredIntegration (name : String)
  | integrationName (name : String)
  | duplicateMessages (names : List String)
  | duplicateIntegrations (names : List String)
  | unknownFunctions (names : List String)
  | stateNotSource
  | longNumber
  | notCharacters (value : Json)
  | nameNotText (value : Json)
  | namesNotListed
  | descriptionNotText (value : Json)
  | requestNotText (value : Json)
  deriving DecidableEq, Repr

def Fault.text : Fault → String
  | .notFinite value => "Cannot emit non-finite number " ++ Number.writeDouble Number.plain value
  | .undeclaredMessage ref => s!"Example references undeclared message '{ref}'"
  | .wrongKind ref found wanted =>
    s!"'{ref}' is a " ++ found.word ++ " but a " ++ wanted.word ++ " is required here"
  | .messageName name => s!"Message name '{name}' is not a valid identifier"
  | .commandWhen => "A command slice block needs a single command in 'when'"
  | .reactWhen => "A react slice block needs a list of events in 'when'"
  | .queryWhen => "A query slice block cannot have a 'when'"
  | .errorOutcome => "Error outcomes are only allowed in command slices"
  | .noSystem => "Integration pipeline entries need at least one system"
  | .undeclaredIntegration name => s!"Pipeline references undeclared integration '{name}'"
  | .integrationName name => s!"Integration name '{name}' is not a valid identifier"
  | .duplicateMessages names => "Duplicate message names: " ++ Text.joinWith ", " names
  | .duplicateIntegrations names => "Duplicate integration names: " ++ Text.joinWith ", " names
  | .unknownFunctions names => "Not DSL functions: " ++ Text.joinWith ", " names
  | .stateNotSource => "A state can only be looked up from a source"
  | .longNumber => Number.longNumberText
  | .notCharacters value => "Not made of characters: " ++ value.shown
  | .nameNotText value => "A name must be a text, got " ++ value.shown
  | .namesNotListed => "Names that are no texts cannot be listed"
  | .descriptionNotText value => "A description must be a text, got " ++ value.shown
  | .requestNotText value => "A request must be a text, got " ++ value.shown

end EventFlow.Emission
