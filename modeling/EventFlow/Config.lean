import EventFlow.Json.Value
import EventFlow.Text.Line
import EventFlow.Text.Order

/-!
Settings of a project: where generated code imports from, which files hold flows, and when a
compilation gives up.

A setting that a document leaves out keeps its default; one that is unknown or of the wrong type is
refused.
-/

namespace EventFlow

structure Config where
  /-- Where generated code imports the functions and message kinds of the language from. -/
  flowImport : String := "@auto-engineer/flow"
  /-- Where generated code imports the types from that only integrations use. -/
  integrationImport : String := "../server/src/integrations"
  /-- Modules whose imports are never integrations. -/
  dslModules : List String :=
    ["@auto-engineer/flow", "@auto-engineer/flowlang", "@auto-engineer/narrative"]
  flowFileSuffix : String := ".flow.ts"
  schemaPath : String := ".context/schema.json"
  /-- A compilation stops after this many failures. -/
  maxFailures : Option Nat := none
  /-- How deep brackets, callbacks, default values and aliases may be nested. It stands for the
  space that a reader has, and no document sets it. -/
  nestingLimit : Nat := 500
  deriving DecidableEq, Repr

namespace Config

inductive Fault where
  | notAMapping
  | unknownKeys (keys : List String)
  | notAString (key : String)
  | dslModules
  | maxFailures
  deriving DecidableEq, Repr

def Fault.text : Fault → String
  | .notAMapping => "Configuration must be a mapping"
  | .unknownKeys keys => "Unknown configuration keys: " ++ Text.joinWith ", " keys
  | .notAString key => s!"'{key}' must be a string"
  | .dslModules => "'dsl_modules' must be a list of strings"
  | .maxFailures => "'max_failures' must be a positive integer"

def keys : List String :=
  ["flow_import", "integration_import", "dsl_modules", "flow_file_suffix", "schema_path",
    "max_failures"]

/-- The text of a setting, or its default. -/
def textSetting (members : Json.Members) (key default : String) : Except Fault String :=
  match Json.get? key members with
  | none => .ok default
  | some (.text s) => .ok s
  | some _ => .error (.notAString key)

/-- The texts of a list, if it holds nothing else. -/
def allTexts? : List Json → Option (List String)
  | [] => some []
  | .text s :: rest => (allTexts? rest).map (s :: ·)
  | _ :: _ => none

def modulesSetting (members : Json.Members) (default : List String) :
    Except Fault (List String) :=
  match Json.get? "dsl_modules" members with
  | none => .ok default
  | some (.array items) =>
    match allTexts? items with
    | some modules => .ok modules
    | none => .error .dslModules
  | some _ => .error .dslModules

def limitSetting (members : Json.Members) : Except Fault (Option Nat) :=
  match Json.get? "max_failures" members with
  | none | some .null => .ok none
  | some (.number (.int i)) => if 1 ≤ i then .ok (some i.toNat) else .error .maxFailures
  | some _ => .error .maxFailures

def ofMembers (members : Json.Members) : Except Fault Config := do
  match (members.map (·.1)).filter (fun key => !keys.contains key) with
  | [] => pure ()
  | unknown => throw (.unknownKeys (Text.ascendingSet unknown))
  let standard : Config := {}
  let flowImport ← textSetting members "flow_import" standard.flowImport
  let integrationImport ← textSetting members "integration_import" standard.integrationImport
  let flowFileSuffix ← textSetting members "flow_file_suffix" standard.flowFileSuffix
  let schemaPath ← textSetting members "schema_path" standard.schemaPath
  let dslModules ← modulesSetting members standard.dslModules
  let maxFailures ← limitSetting members
  return { flowImport, integrationImport, dslModules, flowFileSuffix, schemaPath, maxFailures }

/-- The settings that a document gives; an empty document gives none. -/
def ofJson : Json → Except Fault Config
  | .null => .ok {}
  | .object members => ofMembers members
  | _ => .error .notAMapping

end Config

end EventFlow
