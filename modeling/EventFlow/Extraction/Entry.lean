import EventFlow.Extraction.Walk

/-!
Pipeline entries: chains that start with `sink()` or `source()`.

The first method of a chain names the message, the others say where it goes to or comes from.
-/

namespace EventFlow.Extraction

/-- The message that an entry is about, from the first method after `root()`. -/
def targetOf (root : String) (link : Link) : Result Target :=
  match MessageKind.ofWord? link.method with
  | some kind => do return ⟨kind, ← onlyText link⟩
  | none => fail link.line (.entryTarget root)

/-! ## Integrations -/

/-- The names that a list of arguments begins with, and the arguments after them. -/
def leadingNames : List Expr → List String × List Expr
  | .identifier _ name :: rest =>
    let (names, others) := leadingNames rest
    (name :: names, others)
  | others => ([], others)

/-- The integrations that a method is called with, and the arguments after them. -/
def systemsOf (link : Link) : Walk (List String × List Expr) :=
  match leadingNames link.arguments with
  | ([], _) => refuse link.line .noSystem
  | (names, others) => do
    noteSystems names
    return (names, others)

def integrationTypes : List String := ["command", "query", "reaction"]

/-- The message that an integration is sent, from the arguments after the integrations. -/
def integrationMessage (line : Nat) : List Expr → Result (Option IntegrationMessage)
  | [] => .ok none
  | [name, type] => do
    let type ← textOf "integration message type" type
    if integrationTypes.contains type then
      return some ⟨← textOf "integration message name" name, type⟩
    else fail line (.integrationType type)
  | _ => fail line .integrationArguments

/-! ## Destinations and origins -/

def destinationOf (link : Link) : Walk Destination :=
  match link.method with
  | "toStream" => do return .stream (← onlyText link)
  | "toDatabase" => do return .database (← onlyText link)
  | "toTopic" => do return .topic (← onlyText link)
  | "toIntegration" => do
    let (systems, others) ← systemsOf link
    return .integration systems (← integrationMessage link.line others)
  | method => refuse link.line (.unknownDestination method)

def originOf (link : Link) : Walk Origin :=
  match link.method with
  | "fromProjection" =>
    match link.arguments with
    | [name, idField] => do
      let name ← textOf "projection name" name
      return .projection name (← textOf "id field" idField)
    | _ => refuse link.line .projectionArguments
  | "fromReadModel" => do return .readModel (← onlyText link)
  | "fromDatabase" =>
    match link.arguments with
    | [collection] => do return .database (← textOf "collection" collection) .null
    | [collection, query] => do
      let query ← literal query
      return .database (← textOf "collection" collection) query
    | _ => refuse link.line .databaseArguments
  | "fromApi" =>
    match link.arguments with
    | [endpoint] => do return .api (← textOf "endpoint" endpoint) none
    | [endpoint, method] => do
      let method ← textOf "API method" method
      return .api (← textOf "endpoint" endpoint) (some method)
    | _ => refuse link.line .apiArguments
  | "fromIntegration" => do
    let (systems, others) ← systemsOf link
    if others.isEmpty then return .integration systems
    else refuse link.line .integrationsOnly
  | method => refuse link.line (.unknownOrigin method)

/-! ## Entries -/

/-- What the methods after the first have said of a sink so far. -/
structure SinkDraft where
  destination : Option Destination := none
  state : Option Entry := none
  instructions : Option String := none

/-- What the methods after the first have said of a source so far. -/
structure SourceDraft where
  origin : Option Origin := none
  instructions : Option String := none

/-- One more method of a sink; `inner` reads the entry that looks up a state. -/
def SinkDraft.add (inner : Expr → Walk Entry) (d : SinkDraft) (link : Link) : Walk SinkDraft :=
  if link.method = "additionalInstructions" then do
    return { d with instructions := some (← onlyText link) }
  else if Text.startsWith "to" link.method.toList then
    if d.destination.isSome then refuse link.line .secondDestination
    else do return { d with destination := some (← destinationOf link) }
  else if link.method = "withState" then
    match link.arguments with
    | [e] => do
      let entry ← inner e
      if entry.isSource then return { d with state := some entry }
      else refuse link.line .stateNotSource
    | _ => refuse link.line .stateArguments
  else refuse link.line (.unknownPipelineMethod link.method)

/-- One more method of a source. -/
def SourceDraft.add (d : SourceDraft) (link : Link) : Walk SourceDraft :=
  if link.method = "additionalInstructions" then do
    return { d with instructions := some (← onlyText link) }
  else if Text.startsWith "from" link.method.toList then
    if d.origin.isSome then refuse link.line .secondOrigin
    else do return { d with origin := some (← originOf link) }
  else refuse link.line (.unknownPipelineMethod link.method)

/-- The entry that a chain denotes; states may be looked up `depth` levels deep. -/
def entryOf : (depth : Nat) → Expr → Walk Entry
  | 0, _ => throw ⟨.nesting, none, none⟩
  | depth + 1, e =>
    match e.chain with
    | (_, []) => refuse e.line .entryStart
    | (root, first :: rest) =>
      match root.calleeName? with
      | some "sink" => do
        let target ← targetOf "sink" first
        let d ← rest.foldlM (SinkDraft.add (entryOf depth)) {}
        match d.destination with
        | some destination => return .sink target destination d.state d.instructions
        | none => refuse e.line (.noDestination target.name)
      | some "source" => do
        let target ← targetOf "source" first
        let d ← rest.foldlM SourceDraft.add {}
        match d.origin with
        | some origin => return .source target origin d.instructions
        | none => refuse e.line (.noOrigin target.name)
      | _ => refuse e.line .entryStart

end EventFlow.Extraction
