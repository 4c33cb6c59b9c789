import EventFlow.Extraction.Walk
import EventFlow.Json.Shown

/-!
Blocks of examples: chains of given, when and then.

The form of a chain tells the kind of slice that it belongs to: a query has no `when`, a reaction
has a list of events there, and a command has one command.
-/

namespace EventFlow.Extraction

/-! ## Examples -/

/-- The members of the data that an example is called with. -/
def exampleData (line : Nat) (kind : MessageKind) (name : String) :
    List Expr → Result Json.Members
  | [] => .ok []
  | [.object _ ps] => do return Json.ofPairs (← literalMembers ps)
  | [e] => fail e.line .exampleData
  | _ => fail line (.exampleArguments kind name)

/-- A call such as `Events.Created({ … })`; the message must be of the expected kind. -/
def exampleOf (declared : Declared) (expected : Option MessageKind) (e : Expr) : Walk Example :=
  match e with
  | .call l (.member _ (.identifier _ builder) name) args _ =>
    match MessageKind.ofBuilder? builder with
    | none => refuse l .exampleForm
    | some kind => do
      match expected with
      | some wanted => if kind ≠ wanted then refuse l (.exampleKind wanted kind name)
      | none => pure ()
      let data ← exampleData l kind name args
      let ref := declared.resolve name
      noteMessage declared l ref kind data
      return ⟨ref, .object data⟩
  | _ => refuse e.line .exampleForm

/-- The items of an array; anything else is its own only item. -/
def itemsOf : Expr → List Expr
  | .array _ es => es
  | e => [e]

/-! ## Outcomes -/

/-- The message of an error; null stands for none. -/
def errorMessage (line : Nat) : Option Json → Result (Option String)
  | none | some .null => .ok none
  | some (.text s) => .ok (some s)
  | some _ => fail line .errorMessage

/-- The error that an object literal denotes. -/
def errorOf (line : Nat) (data : Json.Members) : Result Outcome :=
  match Json.get? "errorType" data with
  | none => fail line .errorForm
  | some type =>
    if data.any (fun (key, _) => key ≠ "errorType" && key ≠ "message") then fail line .errorForm
    else
      let known := match type with
        | .text s => ErrorType.ofWord? s
        | _ => none
      match known with
      | none => fail line (if type.isWritable then .unknownError type.display else .longNumber)
      | some t => do return .error t (← errorMessage line (Json.get? "message" data))

def outcomeOf (declared : Declared) (kind : SliceKind) (e : Expr) : Walk Outcome :=
  match e with
  | .object l ps =>
    if kind ≠ .command then refuse l .errorOutcome
    else do
      let data ← literalMembers ps
      errorOf l (Json.ofPairs data)
  | _ => do return .message (← exampleOf declared none e)

/-! ## Chains -/

inductive Step where
  | given
  | when
  | outcome
  deriving DecidableEq, Repr

namespace Step

def ofName? : String → Option Step
  | "given" => some .given
  | "when" => some .when
  | "then" => some .outcome
  | _ => none

def index : Step → Nat
  | .given => 0
  | .when => 1
  | .outcome => 2

end Step

/-- The steps of a chain with their arguments; they stand in order, from `next` on. -/
def stepsFrom (next : Nat) : List Link → Result (List (Step × Expr))
  | [] => .ok []
  | link :: rest =>
    match Step.ofName? link.method with
    | none => fail link.line (.unknownStep link.method)
    | some step =>
      if step.index < next then fail link.line (.stepOrder link.method)
      else match link.arguments with
        | [e] => do
          let more ← stepsFrom (step.index + 1) rest
          return (step, e) :: more
        | _ => fail link.line (.stepArguments link.method)

/-- The steps of a chain, the first of which is a call of `given` or `when`. -/
def stepsOf (e : Expr) : Result (List (Step × Expr)) :=
  let (root, links) := e.chain
  match root.calleeName? with
  | some name =>
    if name = "given" || name = "when" then
      stepsFrom 0 (⟨root.line, name, root.arguments, none⟩ :: links)
    else fail e.line .chainStart
  | none => fail e.line .chainStart

/-- The kind of slice whose chains have such a `when`. -/
def shapeOf : Option Expr → SliceKind
  | none => .query
  | some (.array ..) => .react
  | some _ => .command

/-- What sets the block off, given that it has the shape of its slice. -/
def whenOf (declared : Declared) : Option Expr → Walk When
  | none => return .nothing
  | some (.array _ es) => do return .many (← es.mapM (exampleOf declared (some .event)))
  | some e => do return .one (← exampleOf declared (some .command) e)

/-- The block that a chain denotes in a slice of the given kind. -/
def specOf (declared : Declared) (kind : SliceKind) (e : Expr) : Walk Spec := do
  let steps ← stepsOf e
  match steps.lookup .outcome with
  | none => refuse e.line .noOutcome
  | some outcomes => do
    let trigger := steps.lookup .when
    if shapeOf trigger ≠ kind then refuse e.line (.shape (shapeOf trigger) kind)
    let given ← (((steps.lookup .given).map itemsOf).getD []).mapM (exampleOf declared none)
    let trigger ← whenOf declared trigger
    let outcomes ← (itemsOf outcomes).mapM (outcomeOf declared kind)
    return ⟨given, trigger, outcomes⟩

end EventFlow.Extraction
