import EventFlow.Emission.Entry
import EventFlow.Emission.Spec

/-!
Flows and slices as statements.
-/

namespace EventFlow.Emission

variable {τ β ν : Type} [Leaf τ]

/-- A call whose last argument is a callback with the given lines as its body. -/
def block (indent header footer : String) (body : List String) : List String :=
  if body.isEmpty then [indent ++ header ++ "() => {}" ++ footer]
  else [indent ++ header ++ r"() => {"] ++ body ++ [indent ++ r"}" ++ footer]

/-- A name, and an id if there is one, as arguments. -/
def nameArguments (name : τ) (id : Option τ) : Except Fault String := do
  let name ← quoted name
  let id ← quotedOption id
  return Text.joinWith ", " (name :: id)

/-! ## Slices -/

def streamLines (indent : String) (stream : Option τ) : Except Fault (List String) := do
  return (← quotedOption stream).map fun pattern => indent ++ ".stream(" ++ pattern ++ ")"

def clientLines (indent : String) : Option (Client τ) → Emit (List String)
  | none => return []
  | some client => do
    useFunction "specs"
    let shoulds ← client.specs.mapM fun text => do
      useFunction "should"
      return indent ++ "    should(" ++ (← quoted text) ++ ");"
    let header := "specs(" ++ (← quoted client.description) ++ ", "
    return block indent ".client(" ")" (block (indent ++ "  ") header ");" shoulds)

def requestLines (indent : String) : Option τ → Emit (List String)
  | none => return []
  | some request => do
    useFunction "gql"
    return [indent ++ ".request(gql" ++ (← templated request) ++ ")"]

/-- Whether a server says nothing. -/
def isBare (s : Server τ) : Bool :=
  Leaf.same s.description "" && s.specs.isEmpty && s.data.isEmpty

/-- The description of a server as the last argument, if it says something. -/
def serverFooter (description : τ) : Except Fault String :=
  if (Leaf.value description).isVoid then .ok ")"
  else do return ", " ++ (← quoted description) ++ ")"

/-- The server of a slice; one that says nothing is not written. -/
def serverLines (model : Model τ β ν) (kind : SliceKind) (indent : String) (s : Server τ) :
    Emit (List String) :=
  if isBare s then return []
  else do
    let inner := indent ++ "  "
    let data ← if s.data.isEmpty then pure [] else dataLines model inner s.data
    let specs ← s.specs.mapM (specLines model kind inner)
    let footer ← serverFooter s.description
    return block indent ".server(" footer (data ++ specs.flatten)

/-- The lines with a semicolon after the last. -/
def ended : List String → List String
  | [] => []
  | [line] => [line ++ ";"]
  | line :: rest => line :: ended rest

/-- The statement of a slice, line by line. -/
def sliceLines (model : Model τ β ν) (indent : String) (s : Slice τ) : Emit (List String) := do
  useFunction s.kind.word
  let inner := indent ++ "  "
  let head := indent ++ s.kind.word ++ "(" ++ (← nameArguments s.name s.id) ++ ")"
  let stream ← streamLines inner s.stream
  let client ← clientLines inner s.client
  let request ← requestLines inner s.request
  let server ← serverLines model s.kind inner s.server
  return ended ([head] ++ stream ++ client ++ request ++ server)

/-! ## Flows -/

/-- The statement of a flow, line by line, with its description above it. -/
def flowLines (model : Model τ β ν) (f : Flow τ) : Emit (List String) := do
  useFunction "flow"
  let comment ← commentLines f.description [] ""
  let head := "flow(" ++ (← nameArguments f.name f.id) ++ ", "
  let slices ← f.slices.mapM (sliceLines model "  ")
  return comment ++ block "" head ");" ((slices.intersperse [""]).flatten)

end EventFlow.Emission
