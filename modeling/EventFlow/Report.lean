import EventFlow.Json.Order
import EventFlow.Json.Shown
import EventFlow.Json.Writer
import EventFlow.Model.Basic
import EventFlow.Text.Order

/-!
Reports on a model: what it holds, and what is amiss.

A report counts flows, slices and messages, lists names that are used but not declared or declared
but not used, and finds blocks whose form does not fit their slice. Lists of names are in ascending
order, each name once. Names that are no texts can be counted but not listed:

    report? m = some (report m)        if all names of m are texts
-/

namespace EventFlow

structure Report where
  flows : Nat
  slices : Nat
  messages : Nat
  integrations : Nat
  blocks : Nat
  slicesByKind : List (String × Nat)
  messageUsage : List (String × Nat)
  undefinedReferences : List String
  unusedMessages : List String
  duplicateMessages : List String
  duplicateFlows : List String
  unusedIntegrations : List String
  undefinedIntegrations : List String
  shapeMismatches : List String
  slicesWithoutSpecs : List String
  warnings : List String
  deriving DecidableEq, Repr

namespace Report

variable {τ β ν : Type} [Leaf τ]

/-! ## Names -/

/-- The text that stands for a name where only texts can stand. -/
def label (name : Json) : String := name.text?.getD name.write

/-- Each of the names with the number of times that it occurs, in ascending order. -/
def tally (names : List Json) : List (String × Nat) :=
  (Json.ascendingSet names).map fun x => (label x, Json.countIn names x)

/-- The names that are not among the others, each once. -/
def without (names others : List Json) : List Json :=
  Json.distinct (names.filter fun x => !Json.isIn others x)

/-- Names as a report lists them. -/
def listed (names : List Json) : List String := Text.ascending (names.map Json.display)

def messageNames (m : Model τ β ν) : List Json := m.messages.map fun n => Leaf.value n.name

def flowNames (m : Model τ β ν) : List Json := m.flows.map fun f => Leaf.value f.name

def integrationNames (m : Model τ β ν) : List Json :=
  m.integrations.map fun i => Leaf.value i.name

/-- The messages that the examples refer to. -/
def references (m : Model τ β ν) : List Json := m.examples.map fun e => Leaf.value e.ref

/-- The integrations that the pipelines refer to. -/
def systems (m : Model τ β ν) : List Json :=
  m.slices.flatMap fun s => s.server.data.flatMap fun e => e.systems.map Leaf.value

/-- All names that a report has to list. -/
def toList (m : Model τ β ν) : List Json :=
  Json.repeated (messageNames m) ++ Json.repeated (flowNames m) ++
    without (references m) (messageNames m) ++ without (messageNames m) (references m) ++
    without (integrationNames m) (systems m) ++ without (systems m) (integrationNames m)

/-- Whether all names can be collected, the references put in order, and those listed that are to
be listed. -/
def isReady (m : Model τ β ν) : Bool :=
  (messageNames m ++ flowNames m ++ references m ++ integrationNames m ++ systems m).all
      Json.isKey &&
    Json.sortable (Json.distinct (references m)) && (Json.texts? (toList m)).isSome

/-! ## Shapes -/

/-- The first of some examples whose message is known to be of another kind. -/
def misplaced? (model : Model τ β ν) (wanted : MessageKind) :
    List (Example τ) → Option (Message τ β ν)
  | [] => none
  | e :: rest =>
    match model.message? e.ref with
    | some m => if m.kind ≠ wanted then some m else misplaced? model wanted rest
    | none => misplaced? model wanted rest

def misplacedText (m : Message τ β ν) : String :=
  "'when' references " ++ m.kind.word ++ " '" ++ (Leaf.value m.name).display ++ "'"

/-- Why the form of a block does not fit a slice of the given kind. -/
def shapeProblem? (model : Model τ β ν) : SliceKind → When τ → Option String
  | .command, .one e => (misplaced? model .command [e]).map misplacedText
  | .command, _ => some "command slice without a single 'when' command"
  | .react, .many es => (misplaced? model .event es).map misplacedText
  | .react, _ => some "react slice without a list of 'when' events"
  | .query, .nothing => none
  | .query, _ => some "query slice with a 'when'"

/-- Every slice with the place that messages give for it. -/
def located (model : Model τ β ν) : List (String × Slice τ) :=
  model.flows.flatMap fun f => f.slices.map fun s =>
    ((Leaf.value f.name).display ++ " / " ++ (Leaf.value s.name).display, s)

def mismatchesIn (model : Model τ β ν) : List String :=
  (located model).flatMap fun (place, s) => s.server.specs.filterMap fun spec =>
    (shapeProblem? model s.kind spec.when).map fun problem => place ++ ": " ++ problem

def bareSlices (model : Model τ β ν) : List String :=
  ((located model).filter fun (_, s) => s.server.specs.isEmpty).map (·.1)

/-! ## Warnings -/

/-- A warning that lists some names, if there are any. -/
def listing (what : String) (names : List String) : List String :=
  if names.isEmpty then [] else [what ++ ": " ++ Text.joinWith ", " names]

/-- What a report warns of, each warning once. -/
def warningsOf (r : Report) : List String :=
  (listing "Duplicate message names" r.duplicateMessages ++
    listing "Duplicate flow names" r.duplicateFlows ++
    listing "Undefined message references" r.undefinedReferences ++
    listing "Unused messages" r.unusedMessages ++
    listing "Undefined integrations" r.undefinedIntegrations ++
    listing "Unused integrations" r.unusedIntegrations ++
    r.shapeMismatches.map ("Shape mismatch in " ++ ·) ++
    (if r.slicesWithoutSpecs.isEmpty then []
      else [s!"Slices without specs: {r.slicesWithoutSpecs.length} of {r.slices}"])).eraseDups

end Report

variable {τ β ν : Type} [Leaf τ]

open Report in
/-- The report on a model. -/
def Model.report (m : Model τ β ν) : Report :=
  let r : Report :=
    { flows := m.flows.length
      slices := m.slices.length
      messages := m.messages.length
      integrations := m.integrations.length
      blocks := (m.slices.flatMap (·.server.specs)).length
      slicesByKind := tally (m.slices.map fun s => .text s.kind.word)
      messageUsage := tally (references m)
      undefinedReferences := listed (without (references m) (messageNames m))
      unusedMessages := listed (without (messageNames m) (references m))
      duplicateMessages := listed (Json.repeated (messageNames m))
      duplicateFlows := listed (Json.repeated (flowNames m))
      unusedIntegrations := listed (without (integrationNames m) (systems m))
      undefinedIntegrations := listed (without (systems m) (integrationNames m))
      shapeMismatches := mismatchesIn m
      slicesWithoutSpecs := bareSlices m
      warnings := [] }
  { r with warnings := r.warningsOf }

/-- The report on a model, unless its names cannot be listed. -/
def Model.report? (m : Model τ β ν) : Option Report :=
  if Report.isReady m then some m.report else none

end EventFlow
