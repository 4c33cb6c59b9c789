import EventFlow.Declaration.Fault
import EventFlow.Model.Basic
import EventFlow.Program.Fault

/-!
What can be wrong with a program that is to describe flows.

A flow file can fail in its type declarations, in its tokens, in its grammar and in what its calls
say; `Reason` joins the four. Some faults are fatal: they are not a complaint about the one file,
and end the compilation of the whole project.
-/

namespace EventFlow.Extraction

inductive Fault where
  | topLevel
  | importedTwice (name : String)
  | flowName
  | duplicateFlow (name : String)
  | flowArguments (name : String)
  | flowCallback (name : String)
  | flowStatement (name : String)
  | sliceConstructor (found : String)
  | sliceArguments (constructor : String)
  | sliceId (constructor : String)
  | repeatedMethod (method : String)
  | unknownSliceMethod (method : String)
  | oneText (method : String)
  | notText (what : String)
  | notArrow (what : String)
  | clientArguments
  | clientStatement
  | specsArguments
  | expectedShould
  | requestArguments
  | requestSubstitution
  | serverArguments
  | serverStatement
  | nesting
  | dataArguments
  | entryStart
  | entryTarget (root : String)
  | secondDestination
  | secondOrigin
  | stateArguments
  | stateNotSource
  | unknownPipelineMethod (method : String)
  | noDestination (target : String)
  | noOrigin (target : String)
  | noSystem
  | integrationArguments
  | integrationType (found : String)
  | unknownDestination (method : String)
  | projectionArguments
  | databaseArguments
  | apiArguments
  | integrationsOnly
  | unknownOrigin (method : String)
  | chainStart
  | unknownStep (name : String)
  | stepOrder (name : String)
  | stepArguments (name : String)
  | noOutcome
  | shape (found wanted : SliceKind)
  | errorOutcome
  | errorForm
  | unknownError (found : String)
  | errorMessage
  | exampleForm
  | exampleKind (wanted found : MessageKind) (name : String)
  | exampleArguments (kind : MessageKind) (name : String)
  | exampleData
  | messageKind (ref : String) (declared used : MessageKind)
  | templateData
  | spreadData
  | shorthandData (key : String)
  | constructedData
  | identifierData (name : String)
  | notData (kind : String)
  | longNumber
  deriving DecidableEq, Repr

def Fault.text : Fault → String
  | .topLevel => "Unsupported top-level statement"
  | .importedTwice name => s!"Integration '{name}' is imported more than once"
  | .flowName => "flow() requires a name string as its first argument"
  | .duplicateFlow name => s!"Duplicate flow name '{name}'"
  | .flowArguments name => s!"flow('{name}') expects a name, an optional id and a callback"
  | .flowCallback name => s!"flow('{name}') callback must be a block arrow function"
  | .flowStatement name => s!"Unsupported statement in flow '{name}'"
  | .sliceConstructor found => s!"Expected a slice constructor, got '{found}'"
  | .sliceArguments constructor => s!"{constructor}() expects a name string and an optional id"
  | .sliceId constructor => s!"{constructor}() id must be a string"
  | .repeatedMethod method => s!"'.{method}()' is called more than once"
  | .unknownSliceMethod method => s!"Unknown slice method '.{method}()'"
  | .oneText method => s!"'.{method}()' expects exactly one string"
  | .notText what => s!"{what} must be a string literal"
  | .notArrow what => s!"{what} expects an arrow function"
  | .clientArguments => "'.client()' expects exactly one callback"
  | .clientStatement => "Only specs() and should() are allowed in '.client()'"
  | .specsArguments => "specs() expects an optional title and a callback"
  | .expectedShould => "Expected should('<text>')"
  | .requestArguments => "'.request()' expects exactly one argument"
  | .requestSubstitution => "Request templates cannot contain substitutions"
  | .serverArguments => "'.server()' expects a callback and an optional description"
  | .serverStatement => "Unsupported statement in '.server()'"
  | .nesting => "Nesting too deep"
  | .dataArguments => "data() expects an array of sink() and source() chains"
  | .entryStart => "Pipeline entries must start with sink() or source()"
  | .entryTarget root => s!"Expected .event(), .command() or .state() after {root}()"
  | .secondDestination => "A sink has exactly one destination"
  | .secondOrigin => "A source has exactly one origin"
  | .stateArguments => "'.withState()' expects one source() chain"
  | .stateNotSource => "'.withState()' expects a source() chain"
  | .unknownPipelineMethod method => s!"Unknown pipeline method '.{method}()'"
  | .noDestination target => s!"sink() for '{target}' has no destination"
  | .noOrigin target => s!"source() for '{target}' has no origin"
  | .noSystem => "Integration calls name at least one integration"
  | .integrationArguments => "'.toIntegration()' takes a message name and a message type"
  | .integrationType found => s!"Unknown integration message type '{found}'"
  | .unknownDestination method => s!"Unknown sink destination '.{method}()'"
  | .projectionArguments => "'.fromProjection()' expects a projection name and an id field"
  | .databaseArguments => "'.fromDatabase()' expects a collection and an optional query"
  | .apiArguments => "'.fromApi()' expects an endpoint and an optional method"
  | .integrationsOnly => "'.fromIntegration()' only takes integrations"
  | .unknownOrigin method => s!"Unknown source origin '.{method}()'"
  | .chainStart => "Expected a given(...) or when(...) chain"
  | .unknownStep name => s!"Unknown step '.{name}()' in Given-When-Then chain"
  | .stepOrder name => s!"'{name}' is out of order in Given-When-Then chain"
  | .stepArguments name => s!"{name}() expects exactly one argument"
  | .noOutcome => "Given-When-Then chain has no .then(...)"
  | .shape found wanted =>
    "Given-When-Then chain is shaped like a " ++ found.word ++ " slice but the slice is a " ++
      wanted.word ++ " slice"
  | .errorOutcome => "Error outcomes are only allowed in command slices"
  | .errorForm => "Error outcomes are {errorType, message?} objects"
  | .unknownError found => s!"Unknown errorType '{found}'"
  | .errorMessage => "Error message must be a string"
  | .exampleForm => "Expected Events.X(...), Commands.X(...) or State.X(...)"
  | .exampleKind wanted found name =>
    "Expected " ++ wanted.builder ++ ".X(...) here, got " ++ found.builder ++ "." ++ name
  | .exampleArguments kind name => kind.builder ++ "." ++ name ++ "() takes at most one argument"
  | .exampleData => "Example data must be an object literal"
  | .messageKind ref declared used =>
    s!"'{ref}' is declared as " ++ declared.word ++ " but used as " ++ used.word
  | .templateData => "Template literals with ${...} are not literal data"
  | .spreadData => "Spread elements are not literal data"
  | .shorthandData key => s!"Shorthand property '{key}' is not literal data"
  | .constructedData => "Only new Date('<ISO string>') is accepted as literal data"
  | .identifierData name => s!"Identifier '{name}' is not literal data"
  | .notData kind => s!"{kind} is not literal data"
  | .longNumber => Number.longNumberText

/-- What can be wrong with a flow file. -/
inductive Reason where
  | declaration (fault : Declaration.Fault)
  | lexical (fault : Token.Fault)
  | program (fault : Program.Fault)
  | flow (fault : Fault)
  deriving DecidableEq, Repr

namespace Reason

def text : Reason → String
  | .declaration fault => fault.text
  | .lexical fault => fault.text
  | .program fault => fault.text
  | .flow fault => fault.text

/-- The tokens of the faults that end a whole compilation. -/
def fatalToken : Token.Fault → Bool
  | .codePointTooLarge | .longInteger _ | .strayDigit => true
  | _ => false

/-- Whether the fault ends the compilation of the whole project. -/
def isFatal : Reason → Bool
  | .declaration (.lexical fault) => fatalToken fault
  | .declaration (.versionNumeral _) | .declaration (.longVersion _) => true
  | .declaration .longNumber | .program .longNumber | .flow .longNumber => true
  | .lexical fault => fatalToken fault
  | _ => false

end Reason

end EventFlow.Extraction
