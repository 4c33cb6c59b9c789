import EventFlow.Emission.Literal
import EventFlow.Emission.Single
import EventFlow.Emission.Usage

/-!
Blocks of examples as chains of given, when and then.

    command:  [given([…]).]when(Commands.X(…)).then([…])
    react:    when([Events.X(…), …]).then([…])
    query:    given([…]).then([…])

A chain that has neither begins with `given([])`.
-/

namespace EventFlow.Emission

variable {τ β ν : Type} [Leaf τ]

/-- The title of the blocks of a slice. -/
def specTitle : SliceKind → String
  | .command => "When command, then event(s)"
  | .query => "Given event(s), then state"
  | .react => "When event(s), then command(s)"

def bracketed (items : List String) : String := "[" ++ Text.joinWith ", " items ++ "]"

/-- The call that builds an example; the message must be of the expected kind. -/
def exampleCall (model : Model τ β ν) (expected : Option MessageKind) (e : Example τ) :
    Emit String :=
  let ref := (Leaf.value e.ref).display
  match model.message? e.ref with
  | none => throw (.undeclaredMessage ref)
  | some m => do
    match expected with
    | some wanted => if m.kind ≠ wanted then throw (.wrongKind ref m.kind wanted)
    | none => pure ()
    let name ← identifier .messageName m.name
    useMessage m.kind name
    let data ← literal e.data
    return m.kind.builder ++ "." ++ name ++ "(" ++ data ++ ")"

/-- An error as an object literal. -/
def errorLiteral (type : ErrorType) (message : Option τ) : Except Fault String := do
  let note := (← quotedOption message).map ("message: " ++ ·)
  return r"{ " ++ Text.joinWith ", " (("errorType: " ++ quote type.word) :: note) ++ r" }"

def outcomeText (model : Model τ β ν) (kind : SliceKind) : Outcome τ → Emit String
  | .message e => exampleCall model none e
  | .error type message =>
    if kind = .command then errorLiteral type message else throw .errorOutcome

/-- The step of a chain that says what is given, if anything is. -/
def givenSteps (model : Model τ β ν) (examples : List (Example τ)) : Emit (List String) :=
  if examples.isEmpty then return []
  else do
    let items ← examples.mapM (exampleCall model none)
    useFunction "given"
    return ["given(" ++ bracketed items ++ ")"]

/-- The step of a chain that says what sets it off, if the slice has one. -/
def whenSteps (model : Model τ β ν) : SliceKind → When τ → Emit (List String)
  | .command, .one e => do
    let call ← exampleCall model (some .command) e
    useFunction "when"
    return ["when(" ++ call ++ ")"]
  | .command, _ => throw .commandWhen
  | .react, .many es => do
    let items ← es.mapM (exampleCall model (some .event))
    useFunction "when"
    return ["when(" ++ bracketed items ++ ")"]
  | .react, _ => throw .reactWhen
  | .query, .nothing => return []
  | .query, _ => throw .queryWhen

/-- The chain of a block. -/
def specChain (model : Model τ β ν) (kind : SliceKind) (s : Spec τ) : Emit String := do
  let given ← givenSteps model s.given
  let trigger ← whenSteps model kind s.when
  let steps := given ++ trigger
  let steps ← if steps.isEmpty then do
      useFunction "given"
      pure ["given([])"]
    else pure steps
  let outcomes ← s.outcomes.mapM (outcomeText model kind)
  return Text.joinWith "." steps ++ ".then(" ++ bracketed outcomes ++ ")"

/-- The statement of a block, line by line. -/
def specLines (model : Model τ β ν) (kind : SliceKind) (indent : String) (s : Spec τ) :
    Emit (List String) := do
  useFunction "specs"
  let chain ← specChain model kind s
  return [indent ++ "specs(" ++ quote (specTitle kind) ++ r", () => {",
    indent ++ "  " ++ chain ++ ";", indent ++ r"});"]

end EventFlow.Emission
