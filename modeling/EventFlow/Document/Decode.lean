import EventFlow.Document.Encode
import EventFlow.Document.Fault
import EventFlow.Json.Order

/-!
Documents as models.

A document is read leniently: members that are not known are dropped, members that may be missing
get their default, and single values are taken as they are, whatever their type. Writing the model
gives the normal form of its document, which is then its own normal form:

    normalize d = ok n  →  normalize n = ok n
-/

namespace EventFlow

namespace Document

abbrev Loaded (α : Type) := Except Fault α

/-! ## Members -/

/-- A member that must be there. -/
def required (v : Json) (key : String) : Loaded Json :=
  match v with
  | .object members => match Json.get? key members with
    | some value => .ok value
    | none => .error (.missing key)
  | _ => .error .wrongType

/-- A member, or a default if it is missing. -/
def memberOr (v : Json) (key : String) (default : Json) : Loaded Json :=
  match v with
  | .object members => .ok ((Json.get? key members).getD default)
  | _ => .error .notAnObject

/-- A value, unless it is null. -/
def present : Json → Option Json
  | .null => none
  | v => some v

/-- A member that may be missing or null. -/
def optional (v : Json) (key : String) : Loaded (Option Json) := do
  return present (← memberOr v key .null)

/-- The items of a list; a text counts as its characters and an object as its names. -/
def itemsOf : Json → Loaded (List Json)
  | .array items => .ok items
  | .text s => .ok (s.toList.map fun c => .text (String.singleton c))
  | .object members => .ok (members.map fun (k, _) => .text k)
  | _ => .error .wrongType

/-- The items of a member, each read alike; a missing member counts as an empty list. -/
def listOf {α : Type} (v : Json) (key : String) (item : Json → Loaded α) : Loaded (List α) := do
  (← itemsOf (← memberOr v key (.array []))).mapM item

/-- The value itself, or an empty object for one that counts as nothing. -/
def orEmpty (v : Json) : Json := if v.isVoid then .object [] else v

/-- One of the words of an enumeration. -/
def oneOf {α : Type} (enumeration : String) (ofWord? : String → Option α) (v : Json) : Loaded α :=
  match v.text?.bind ofWord? with
  | some x => .ok x
  | none => .error (.notAMember v enumeration)

/-! ## Messages and integrations -/

def field (v : Json) : Loaded (Field Json Json) := do
  let name ← required v "name"
  let type ← required v "type"
  let needed ← memberOr v "required" (.bool true)
  let description ← optional v "description"
  let value ← memberOr v "defaultValue" .null
  return ⟨name, type, needed, description, value⟩

def message (v : Json) : Loaded LooseMessage := do
  let metadata ← memberOr v "metadata" .null
  let name ← required v "name"
  let kind ← oneOf "MessageKind" MessageKind.ofWord? (← required v "type")
  let fields ← listOf v "fields" field
  let description ← optional v "description"
  let version ← memberOr (orEmpty metadata) "version" (.int 1)
  return ⟨name, kind, fields, description, version⟩

def integration (v : Json) : Loaded (Integration Json) := do
  let name ← required v "name"
  let source ← required v "source"
  let description ← optional v "description"
  return ⟨name, source, description⟩

/-! ## Blocks of examples -/

def exampleOf (v : Json) : Loaded (Example Json) := do
  let ref ← required v "ref"
  let data ← memberOr v "exampleData" (.object [])
  return ⟨ref, data⟩

def outcome (v : Json) : Loaded (Outcome Json) :=
  match v with
  | .object members =>
    match Json.get? "errorType" members with
    | some type => do
      let type ← oneOf "ErrorType" ErrorType.ofWord? type
      let message ← optional v "message"
      return .error type message
    | none => do return .message (← exampleOf v)
  | _ => .error .wrongType

def whenOf (v : Json) : Loaded (When Json) :=
  match v with
  | .null => .ok .nothing
  | .array items => do return .many (← items.mapM exampleOf)
  | v => do return .one (← exampleOf v)

def spec (v : Json) : Loaded (Spec Json) := do
  let start ← whenOf (← memberOr v "when" .null)
  let outcomes ← listOf v "then" outcome
  let given ← listOf v "given" exampleOf
  return ⟨given, start, outcomes⟩

/-! ## Pipelines -/

def targetKind (v : Json) : Loaded MessageKind :=
  if !v.isKey then .error .wrongType
  else match v.text?.bind MessageKind.ofTypeName? with
    | some kind => .ok kind
    | none => .error (.unknownTarget v)

def target (v : Json) : Loaded (Target Json) := do
  let kind ← targetKind (← required v "type")
  let name ← required v "name"
  return ⟨kind, name⟩

def integrationMessage (v : Json) : Loaded (Option (IntegrationMessage Json)) :=
  match v with
  | .null => .ok none
  | v => do
    let name ← required v "name"
    let type ← required v "type"
    return some ⟨name, type⟩

def destination (v : Json) : Loaded (Destination Json) := do
  match ← memberOr v "type" .null with
  | .text "stream" => return .stream (← required v "pattern")
  | .text "integration" => do
    let message ← integrationMessage (← memberOr v "message" .null)
    let systems ← itemsOf (← required v "systems")
    return .integration systems message
  | .text "database" => return .database (← required v "collection")
  | .text "topic" => return .topic (← required v "name")
  | type => .error (.unsupportedDestination type)

def origin (v : Json) : Loaded (Origin Json) := do
  match ← memberOr v "type" .null with
  | .text "projection" => do
    let name ← required v "name"
    let idField ← required v "idField"
    return .projection name idField
  | .text "readModel" => return .readModel (← required v "name")
  | .text "database" => do
    let collection ← required v "collection"
    let query ← memberOr v "query" .null
    return .database collection query
  | .text "api" => do
    let endpoint ← required v "endpoint"
    let method ← optional v "method"
    return .api endpoint method
  | .text "integration" => return .integration (← itemsOf (← required v "systems"))
  | type => .error (.unsupportedOrigin type)

theorem sizeOf_get?_lt {key : String} {members : Json.Members} {v : Json}
    (h : Json.get? key members = some v) : sizeOf v < sizeOf members := by
  induction members with
  | nil => simp [Json.get?] at h
  | cons p rest ih =>
    obtain ⟨k, x⟩ := p
    simp only [Json.get?] at h
    split at h
    · cases h
      simp
      omega
    · have := ih h
      simp
      omega

/-- An entry is a sink if it has a destination, and else a source. -/
def entry (v : Json) : Loaded (Entry Json) :=
  match v with
  | .object members =>
    let instructions := (Json.get? "_additionalInstructions" members).bind present
    match Json.get? "destination" members, Json.get? "origin" members with
    | some dest, _ => do
      let about ← target (← required v "target")
      let dest ← destination dest
      match _h : Json.get? "_withState" members with
      | none | some .null => return .sink about dest none instructions
      | some state => do
        let state ← entry state
        return .sink about dest (some state) instructions
    | none, some from_ => do
      let about ← target (← required v "target")
      let from_ ← origin from_
      return .source about from_ instructions
    | none, none => .error .neitherDestinationNorOrigin
  | _ => .error .notAnObject
termination_by sizeOf v
decreasing_by
  have := sizeOf_get?_lt _h
  simp
  omega

/-! ## Slices, flows and models -/

def client (v : Json) : Loaded (Option (Client Json)) :=
  match v with
  | .null => .ok none
  | v => do
    let description ← memberOr v "description" (.text "")
    let specs ← listOf v "specs" pure
    return some ⟨description, specs⟩

def server (v : Json) : Loaded (Server Json) := do
  let description ← memberOr v "description" (.text "")
  let specs ← listOf v "gwt" spec
  let data ← listOf v "data" entry
  return ⟨description, specs, data⟩

def slice (v : Json) : Loaded (Slice Json) := do
  let behind ← memberOr v "server" .null
  let front ← client (← memberOr v "client" .null)
  let kind ← oneOf "SliceKind" SliceKind.ofWord? (← required v "type")
  let name ← required v "name"
  let behind ← server (orEmpty behind)
  let id ← optional v "id"
  let stream ← optional v "stream"
  let request ← optional v "request"
  return ⟨kind, name, behind, id, stream, front, request⟩

def flow (v : Json) : Loaded (Flow Json) := do
  let name ← required v "name"
  let slices ← listOf v "slices" slice
  let id ← optional v "id"
  let description ← optional v "description"
  return ⟨name, slices, id, description⟩

/-- The integrations of a model; a value that counts as nothing is an empty list. -/
def integrations (v : Json) : Loaded (List (Integration Json)) := do
  let listed ← memberOr v "integrations" .null
  (← itemsOf (if listed.isVoid then .array [] else listed)).mapM integration

end Document

/-- The model of a document. -/
def Model.ofJson (v : Json) : Document.Loaded LooseModel := do
  let flows ← Document.listOf v "flows" Document.flow
  let messages ← Document.listOf v "messages" Document.message
  let integrations ← Document.integrations v
  return ⟨flows, messages, integrations⟩

/-- The normal form of a document. -/
def Document.normalize (v : Json) : Document.Loaded Json := do
  return (← Model.ofJson v).toJson

end EventFlow
