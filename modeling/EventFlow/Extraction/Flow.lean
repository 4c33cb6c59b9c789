import EventFlow.Config
import EventFlow.DocComment
import EventFlow.Extraction.Client
import EventFlow.Extraction.Entry
import EventFlow.Extraction.Spec

/-!
Flows, and the slices in them.
-/

namespace EventFlow.Extraction

/-! ## Servers -/

/-- The entries of a call of `data`. -/
def entriesOf (depth : Nat) (e : Expr) : Walk (List Entry) :=
  match e.arguments with
  | [.array _ es] => es.mapM (entryOf depth)
  | _ => refuse e.line .dataArguments

/-- The block of a statement in a call of `specs`. -/
def specStatement (declared : Declared) (kind : SliceKind) (s : Statement) : Walk Spec :=
  match statementValue? s with
  | some e => specOf declared kind e
  | none => refuse s.line .chainStart

/-- What one statement adds to a server. -/
def serverPart (depth : Nat) (declared : Declared) (kind : SliceKind) (s : Statement) :
    Walk (List Spec × List Entry) :=
  match statementValue? s with
  | some (.call l callee args types) =>
    let e := Expr.call l callee args types
    match e.calleeName? with
    | some "data" => do return ([], ← entriesOf depth e)
    | some "specs" => do
      let (_, body) ← specsBlock l args
      return (← body.mapM (specStatement declared kind), [])
    | _ => do return ([← specOf declared kind e], [])
  | _ => refuse s.line .serverStatement

/-- The statements of a server, which may have a description. -/
def serverOf (depth : Nat) (declared : Declared) (kind : SliceKind) (link : Link) :
    Walk Server := do
  let (description, callback) ← match link.arguments with
    | [callback] => pure ("", callback)
    | [callback, description] => do
      let description ← textOf "'.server()' description" description
      pure (description, callback)
    | _ => refuse link.line .serverArguments
  let body ← callbackBody "'.server()'" callback
  let parts ← body.mapM (serverPart depth declared kind)
  return ⟨description, parts.flatMap (·.1), parts.flatMap (·.2)⟩

/-! ## Slices -/

/-- The functions that start a slice. -/
def sliceConstructors : List (String × SliceKind) :=
  [("command", .command), ("commandSlice", .command), ("query", .query), ("querySlice", .query),
    ("react", .react), ("reactSlice", .react)]

/-- What the methods have said of a slice so far. -/
structure SliceDraft where
  stream : Option String := none
  client : Option Client := none
  request : Option String := none
  server : Option Server := none

/-- One more method of a slice; each is called at most once. -/
def SliceDraft.add (depth : Nat) (declared : Declared) (kind : SliceKind) (d : SliceDraft)
    (link : Link) : Walk SliceDraft :=
  match link.method with
  | "stream" =>
    if d.stream.isSome then refuse link.line (.repeatedMethod link.method)
    else do return { d with stream := some (← onlyText link) }
  | "client" =>
    if d.client.isSome then refuse link.line (.repeatedMethod link.method)
    else do return { d with client := some (← clientOf link) }
  | "request" =>
    if d.request.isSome then refuse link.line (.repeatedMethod link.method)
    else do return { d with request := some (← requestOf link) }
  | "server" =>
    if d.server.isSome then refuse link.line (.repeatedMethod link.method)
    else do return { d with server := some (← serverOf depth declared kind link) }
  | method => refuse link.line (.unknownSliceMethod method)

/-- The name of a slice, and its id if it has one. -/
def sliceNames (constructor : String) (line : Nat) : List Expr → Result (String × Option String)
  | [.text _ name] => .ok (name, none)
  | [.text _ name, .text _ id] => .ok (name, some id)
  | [.text _ _, _] => fail line (.sliceId constructor)
  | _ => fail line (.sliceArguments constructor)

def sliceOf (depth : Nat) (declared : Declared) (e : Expr) : Walk Slice :=
  let (root, links) := e.chain
  let constructor := root.calleeName?.getD root.kind
  match root.calleeName?.bind (fun name => sliceConstructors.lookup name) with
  | none => refuse root.line (.sliceConstructor constructor)
  | some kind => do
    let (name, id) ← sliceNames constructor root.line root.arguments
    let d ← inSlice name (links.foldlM (SliceDraft.add depth declared kind) {})
    return ⟨kind, name, d.server.getD Server.empty, id, d.stream, d.client, d.request⟩

/-! ## Flows -/

def flowConstructors : List String := ["flow", "narrative"]

/-- The name of a flow, which no other flow of the program has. -/
def flowName (line : Nat) : List Expr → Walk String
  | .text _ name :: _ => do
    let findings ← get
    if findings.flowNames.contains name then refuse line (.duplicateFlow name)
    set { findings with flowNames := findings.flowNames ++ [name] }
    return name
  | _ => refuse line .flowName

/-- The id of a flow, if it has one, and its callback. -/
def flowCallback (name : String) (line : Nat) : List Expr → Result (Option String × Expr)
  | [_, callback] => .ok (none, callback)
  | [_, .text _ id, callback] => .ok (some id, callback)
  | _ => fail line (.flowArguments name)

def flowSlice (depth : Nat) (declared : Declared) (flow : String) (s : Statement) : Walk Slice :=
  match statementValue? s with
  | some e => sliceOf depth declared e
  | none => refuse s.line (.flowStatement flow)

/-- The flow that a call of `flow` denotes, described by the comment above it. -/
def flowOf (depth : Nat) (declared : Declared) (e : Expr) (doc : Option String) : Walk Flow := do
  let name ← flowName e.line e.arguments
  let (id, callback) ← flowCallback name e.line e.arguments
  match callback with
  | .block _ body => do
    let slices ← body.mapM (flowSlice depth declared name)
    return ⟨name, slices, id, doc.bind fun raw => (DocComment.parse raw).1⟩
  | _ => refuse e.line (.flowCallback name)

/-! ## Imports -/

/-- The names of the language, which never denote an integration. -/
def dslNames : List String :=
  ["command", "query", "react", "experience", "narrative", "should", "specs", "rule", "example",
    "gql", "source", "data", "sink", "flow", "given", "when", "createBuilders", "commandSlice",
    "querySlice", "reactSlice", "Command", "Event", "State"]

/-- What a comment says of integrations: the name, and the text after it. -/
def integrationTexts (doc : Option String) : List (String × Option String) :=
  match doc with
  | none => []
  | some raw => (DocComment.parse raw).2.filterMap fun tag =>
    if tag.name = "integration" then
      let (name, text) := Text.splitFirst ' ' tag.value.toList
      let text := String.ofList (Text.trimChars text)
      some (String.ofList name, if text.isEmpty then none else some text)
    else none

/-- The description of an integration: the last one that the comment gives. -/
def integrationText? (texts : List (String × Option String)) (name : String) : Option String :=
  (texts.reverse.lookup name).bind id

/-- The names that an import brings in as integrations. -/
def integrationNames (config : Config) (i : Import) : List Specifier :=
  if i.typeOnly || config.dslModules.contains i.module then []
  else
    let values := i.specifiers.filter (fun s => !s.typeOnly)
    if values.all (fun s => dslNames.contains s.name) then [] else values

/-- Notes one imported integration. -/
def importOne (module : String) (texts : List (String × Option String)) (s : Specifier) :
    Walk Unit := do
  let name := s.localName
  let findings ← get
  if findings.imported.any (·.name = name) then refuse s.line (.importedTwice name)
  let integration : Integration := ⟨name, module, integrationText? texts name⟩
  set { findings with imported := findings.imported ++ [integration] }

/-! ## Programs -/

/-- What a statement at the top level says: a flow, integrations, or nothing. -/
def topLevel (config : Config) (depth : Nat) (declared : Declared) (s : Statement) :
    Walk (Option Flow) :=
  match s with
  | .imports _ content doc => do
    (integrationNames config content).forM (importOne content.module (integrationTexts doc))
    return none
  | .binding .. => return none
  | .expression l e doc =>
    match e.calleeName? with
    | some name =>
      if flowConstructors.contains name then do return some (← flowOf depth declared e doc)
      else refuse l .topLevel
    | none => refuse l .topLevel
  | .result l _ => refuse l .topLevel

/-- The flows of a program. -/
def flowsOf (config : Config) (depth : Nat) (declared : Declared) (program : List Statement) :
    Walk (List Flow) := do
  return (← program.mapM (topLevel config depth declared)).filterMap id

end EventFlow.Extraction
