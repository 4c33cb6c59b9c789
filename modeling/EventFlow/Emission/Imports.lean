import EventFlow.Config
import EventFlow.Emission.Single
import EventFlow.Json.Order
import EventFlow.Text.Order

/-!
Imports of a source text.

The functions and the message kinds come from the module of the language, the integrations from
their own sources, and the types that only integrations use from the module of the integrations.
Names and sources are in ascending order, and there is no import without names.
-/

namespace EventFlow.Emission

variable {τ : Type} [Leaf τ]

/-- The functions that the module of the language exports. -/
def dslFunctions : List String :=
  ["command", "query", "react", "experience", "narrative", "should", "specs", "rule", "example",
    "gql", "source", "data", "sink", "flow", "given", "when", "createBuilders"]

/-- An import of the given names, if there are any. -/
def importLine? (keyword : String) (names : List String) (module : String) : Option String :=
  match Text.ascendingSet names with
  | [] => none
  | sorted =>
    some (keyword ++ r" { " ++ Text.joinWith ", " sorted ++ r" } from '" ++ module ++ "';")

/-- By source, and by name among those of one source. -/
def integrationBefore (a b : Integration τ) : Bool :=
  if Leaf.same a.source b.source then (Leaf.value a.name).notAfter (Leaf.value b.name)
  else (Leaf.value a.source).notAfter (Leaf.value b.source)

/-- The integrations by source, in order. -/
def integrationGroups (is : List (Integration τ)) : List (List (Integration τ)) :=
  (is.mergeSort integrationBefore).splitBy fun a b => Leaf.same a.source b.source

def integrationTag? (i : Integration τ) : Option Tag :=
  match i.description.map Leaf.value with
  | some v =>
    if v.isVoid then none
    else some ⟨"integration", (Leaf.value i.name).display ++ " " ++ v.display⟩
  | none => none

/-- The import of the integrations of one source, with their descriptions above it. -/
def groupLines : List (Integration τ) → Except Fault (List String)
  | [] => .ok []
  | i :: rest => do
    let names ← listedNames ((i :: rest).map fun i => Leaf.value i.name)
    return DocComment.format none ((i :: rest).filterMap integrationTag?) "" ++
      (importLine? "import" names (Leaf.value i.source).display).toList

/-- The imports of all integrations; their sources must have an order. -/
def integrationLines (is : List (Integration τ)) : Except Fault (List String) := do
  if Json.sortable (Json.distinct (is.map fun i => Leaf.value i.source)) then
    return (← (integrationGroups is).mapM groupLines).flatten
  else throw .namesNotListed

/-- All imports, line by line. -/
def importLines (config : Config) (functions : List String) (kinds : List MessageKind)
    (integrations : List (Integration τ)) (typeNames : List String) :
    Except Fault (List String) :=
  match functions.filter (fun name => !dslFunctions.contains name) with
  | [] => do
    let modules ← integrationLines integrations
    return (importLine? "import" functions config.flowImport).toList ++
      (importLine? "import type" (kinds.map (·.typeName)) config.flowImport).toList ++
      modules ++ (importLine? "import type" typeNames config.integrationImport).toList
  | unknown => .error (.unknownFunctions (Text.ascendingSet unknown))

end EventFlow.Emission
