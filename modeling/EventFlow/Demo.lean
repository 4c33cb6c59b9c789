import EventFlow.Model.Example
import EventFlow.Project.Compile
import EventFlow.Project.Schema
import EventFlow.Report
import EventFlow.Store.Memory
import EventFlow.Yaml.Writer

/-!
A demonstration of the whole way from a model to its source text and back.

The example model is written as a flow file into a store in memory, or a project is given by its
store. The project is then compiled and reported on, and its schema is written into the store. What
is done is told line by line.
-/

namespace EventFlow.Demo

inductive Fault where
  | emission (fault : Emission.Fault)
  | compilation (abort : Project.Abort)
  | store (fault : Store.Fault)
  | schema (fault : Project.WriteFault)
  deriving DecidableEq, Repr

def Fault.text : Fault → String
  | .emission fault => fault.text
  | .compilation abort => abort.text
  | .store fault => fault.text
  | .schema fault => fault.text

/-! ## Lines -/

def ruler (mark : Char) : String := String.ofList (List.replicate 80 mark)

def indented (line : String) : String := "   " ++ line

/-- A heading has an empty line above it. -/
def heading (text : String) : List String := ["", text]

def done (text : String) : String := "   ✓ " ++ text

def opening : List String :=
  [ruler '=', "COMPLETE PIPELINE DEMO: Schema → Flow DSL → Schema → Analysis", ruler '=']

def closing : List String := heading (ruler '=') ++ ["PIPELINE COMPLETE!", ruler '=']

def truth (b : Bool) : String := if b then "True" else "False"

/-- Names in quotes between braces, or the word for none. -/
def nameSet (names : List String) : String :=
  if names.isEmpty then "none"
  else r"{" ++ Text.joinWith ", " (names.map Text.shown) ++ r"}"

/-- Names in quotes with their counts, between braces. -/
def countMap (counts : List (String × Nat)) : String :=
  r"{" ++ Text.joinWith ", " (counts.map fun (name, n) => Text.shown name ++ s!": {n}") ++ r"}"

/-! ## The example -/

def modelLines (m : Model) : List String :=
  heading "1. BUILDING EXAMPLE MODEL..." ++
    [done s!"Flows: {m.flows.length}", done s!"Messages: {m.messages.length}",
      done s!"Integrations: {m.integrations.length}"]

/-- The first thirty lines of a source text. -/
def sourceLines (path source : String) : List String :=
  let lines := Text.lines source
  let more := lines.length - 30
  heading "2. DECOMPILING TO FLOW SOURCE..." ++ [done s!"Wrote {path}", ruler '-'] ++
    (lines.take 30).map indented ++
    (if more = 0 then [] else [indented s!"... ({more} more lines)"]) ++ [ruler '-']

/-! ## The project -/

def compileLines (o : Project.Outcome) (expected : Option Model) : List String :=
  heading "3. COMPILING PROJECT..." ++ [done s!"Compiled files: {o.compiled.length}"] ++
    o.failures.map (fun f => "   ✗ " ++ f.text) ++
    (if o.stoppedEarly then [s!"   ! Skipped {o.skipped.length} file(s)"] else []) ++
    match expected with
    | some m => [done ("Round trip preserved the model: " ++ truth (o.model.same m))]
    | none => []

/-- The first five warnings. -/
def warningLines (warnings : List String) : List String :=
  if warnings.isEmpty then []
  else
    heading s!"   Warnings ({warnings.length}):" ++
      (warnings.take 5).map ("      - " ++ ·) ++
      (if warnings.length ≤ 5 then [] else [s!"      ... and {warnings.length - 5} more"])

def reportLines (r : Report) : List String :=
  heading "4. ANALYZING MODEL..." ++
    [done ("Slices by kind: " ++ countMap r.slicesByKind), done s!"GWT blocks: {r.blocks}",
      done ("Undefined references: " ++ nameSet r.undefinedReferences),
      done ("Unused integrations: " ++ nameSet r.unusedIntegrations)] ++
    warningLines r.warnings

/-- The document from its messages on, or from the start if there are none. -/
def fromMessages (lines : List String) : List String :=
  match lines.dropWhile (· ≠ "messages:") with
  | [] => lines
  | rest => rest

def schemaLines (path : String) (m : Model) : List String :=
  heading "5. WRITING SCHEMA..." ++ [done s!"Saved {path}"] ++
    heading "   YAML view of the first message:" ++
    ((fromMessages (Text.lines (Yaml.write m.toJson.sorted))).take 12).map indented

variable {σ : Type} [Store σ]

/-- Compiles the project in a store, reports on it and writes its schema. -/
def compileProject (store : σ) (expected : Option Model) : Except Fault (List String × σ) :=
  let config : Config := {}
  match Project.compile config store "flows" with
  | .error abort => .error (.compilation abort)
  | .ok o =>
    let path := Project.schemaPath config none
    match Project.writeSchema store path o.model.toJson with
    | .error fault => .error (.schema fault)
    | .ok store =>
      .ok (compileLines o expected ++ reportLines o.model.report ++ schemaLines path o.model, store)

/-! ## Programs -/

/-- The whole text, given the lines between its opening and its closing. -/
def told (lines : List String) : String := Text.unlines (opening ++ lines ++ closing) ++ "\n"

/-- The demonstration on a project in a store, which is called by its name. -/
def onProject (name : String) (store : σ) : Except Fault (String × σ) := do
  let (lines, store) ← compileProject store none
  return (told (heading s!"1. USING PROJECT {name}..." ++ lines), store)

/-- The demonstration on the example model. -/
def onExample : Except Fault String :=
  let path := "flows/items.flow.ts"
  match Emission.generate {} Model.items with
  | .error fault => .error (.emission fault)
  | .ok source =>
    match Store.write ({} : Memory) path source with
    | .error fault => .error (.store fault)
    | .ok store => do
      let (lines, _) ← compileProject store (some Model.items)
      return told (modelLines Model.items ++ sourceLines path source ++ lines)

end EventFlow.Demo
