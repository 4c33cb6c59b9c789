import EventFlow.Model.Basic

/-!
Models as documents. Members that say nothing are left out; what is left is a normal document,
which is loaded and written again without a change.
-/

namespace EventFlow

namespace Document

variable {τ : Type} [Leaf τ]

/-- A leaf under a name, if there is one. -/
def put (key : String) (leaf : Option τ) : Json.Members :=
  match leaf with
  | some leaf => [(key, Leaf.value leaf)]
  | none => []

/-- A value under a name, unless it is null. -/
def putValue (key : String) (v : Json) : Json.Members :=
  match v with
  | .null => []
  | v => [(key, v)]

/-- A list of items under a name, unless it is empty. -/
def putItems (key : String) (items : List Json) : Json.Members :=
  if items.isEmpty then [] else [(key, .array items)]

def leaves (xs : List τ) : Json := .array (xs.map Leaf.value)

end Document

open Document

variable {τ β ν : Type} [Leaf τ] [Leaf β] [Leaf ν]

/-! ## Messages and integrations -/

def Field.toJson (f : Field τ β) : Json :=
  .object ([("name", Leaf.value f.name), ("type", Leaf.value f.type),
    ("required", Leaf.value f.required)] ++ put "description" f.description ++
    putValue "defaultValue" f.default)

def Message.toJson (m : Message τ β ν) : Json :=
  .object ([("name", Leaf.value m.name), ("type", .text m.kind.word),
    ("fields", .array (m.fields.map Field.toJson)),
    ("metadata", .object [("version", Leaf.value m.version)])] ++ put "description" m.description)

def Integration.toJson (i : Integration τ) : Json :=
  .object ([("name", Leaf.value i.name), ("source", Leaf.value i.source)] ++
    put "description" i.description)

/-! ## Blocks of examples -/

def Example.toJson (e : Example τ) : Json :=
  .object [("ref", Leaf.value e.ref), ("exampleData", e.data)]

def Outcome.toJson : Outcome τ → Json
  | .message e => e.toJson
  | .error type note => .object ([("errorType", .text type.word)] ++ put "message" note)

def When.members : When τ → Json.Members
  | .nothing => []
  | .one e => [("when", e.toJson)]
  | .many es => [("when", .array (es.map Example.toJson))]

def Spec.toJson (s : Spec τ) : Json :=
  .object (putItems "given" (s.given.map Example.toJson) ++ s.when.members ++
    [("then", .array (s.outcomes.map Outcome.toJson))])

/-! ## Pipelines -/

def Target.toJson (t : Target τ) : Json :=
  .object [("type", .text t.kind.typeName), ("name", Leaf.value t.name)]

def IntegrationMessage.toJson (m : IntegrationMessage τ) : Json :=
  .object [("name", Leaf.value m.name), ("type", Leaf.value m.type)]

def Destination.toJson : Destination τ → Json
  | .stream pattern => .object [("type", .text "stream"), ("pattern", Leaf.value pattern)]
  | .integration systems none =>
    .object [("type", .text "integration"), ("systems", leaves systems)]
  | .integration systems (some message) =>
    .object [("type", .text "integration"), ("systems", leaves systems),
      ("message", message.toJson)]
  | .database collection =>
    .object [("type", .text "database"), ("collection", Leaf.value collection)]
  | .topic name => .object [("type", .text "topic"), ("name", Leaf.value name)]

def Origin.toJson : Origin τ → Json
  | .projection name idField =>
    .object [("type", .text "projection"), ("name", Leaf.value name),
      ("idField", Leaf.value idField)]
  | .readModel name => .object [("type", .text "readModel"), ("name", Leaf.value name)]
  | .database collection query =>
    .object ([("type", .text "database"), ("collection", Leaf.value collection)] ++
      putValue "query" query)
  | .api endpoint method =>
    .object ([("type", .text "api"), ("endpoint", Leaf.value endpoint)] ++ put "method" method)
  | .integration systems => .object [("type", .text "integration"), ("systems", leaves systems)]

def Entry.toJson : Entry τ → Json
  | .source target origin instructions =>
    .object ([("target", target.toJson), ("origin", origin.toJson)] ++
      put "_additionalInstructions" instructions)
  | .sink target destination none instructions =>
    .object ([("target", target.toJson), ("destination", destination.toJson)] ++
      put "_additionalInstructions" instructions)
  | .sink target destination (some state) instructions =>
    .object ([("target", target.toJson), ("destination", destination.toJson),
      ("_withState", state.toJson)] ++ put "_additionalInstructions" instructions)

/-! ## Slices, flows and models -/

def Client.toJson (c : Client τ) : Json :=
  .object [("description", Leaf.value c.description), ("specs", leaves c.specs)]

def Server.toJson (s : Server τ) : Json :=
  .object ([("description", Leaf.value s.description),
    ("gwt", .array (s.specs.map Spec.toJson))] ++ putItems "data" (s.data.map Entry.toJson))

def Client.members : Option (Client τ) → Json.Members
  | some client => [("client", client.toJson)]
  | none => []

def Slice.toJson (s : Slice τ) : Json :=
  .object ([("type", .text s.kind.word), ("name", Leaf.value s.name)] ++ put "id" s.id ++
    put "stream" s.stream ++ Client.members s.client ++ put "request" s.request ++
    [("server", s.server.toJson)])

def Flow.toJson (f : Flow τ) : Json :=
  .object ([("name", Leaf.value f.name)] ++ put "id" f.id ++ put "description" f.description ++
    [("slices", .array (f.slices.map Slice.toJson))])

def Model.toJson (m : Model τ β ν) : Json :=
  .object [("flows", .array (m.flows.map Flow.toJson)),
    ("messages", .array (m.messages.map Message.toJson)),
    ("integrations", .array (m.integrations.map Integration.toJson))]

end EventFlow
