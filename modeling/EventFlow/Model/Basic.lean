import EventFlow.Model.Pipeline

/-!
Models of event flows.

A flow is a list of slices: commands that users give, queries that they ask, and reactions to
events. A slice is described by blocks of examples, given some messages and when some messages,
then some outcomes, and by its data pipeline. The model also lists the messages and the
integrations that the flows refer to by name. Each part is given over a type of leaves: texts, if
nothing else is said.
-/

namespace EventFlow

inductive SliceKind where
  | command
  | query
  | react
  deriving DecidableEq, Repr, Inhabited

namespace SliceKind

def all : List SliceKind := [.command, .query, .react]

def word : SliceKind → String
  | .command => "command"
  | .query => "query"
  | .react => "react"

def ofWord? (s : String) : Option SliceKind := all.find? (·.word = s)

end SliceKind

inductive ErrorType where
  | illegalState
  | validation
  | notFound
  deriving DecidableEq, Repr

namespace ErrorType

def all : List ErrorType := [.illegalState, .validation, .notFound]

def word : ErrorType → String
  | .illegalState => "IllegalStateError"
  | .validation => "ValidationError"
  | .notFound => "NotFoundError"

def ofWord? (s : String) : Option ErrorType := all.find? (·.word = s)

end ErrorType

/-! ## Examples -/

/-- A message by name, with example data. -/
structure Example (τ : Type := String) where
  ref : τ
  data : Json
  deriving DecidableEq, Repr

/-- What a block expects: a message, or an error. -/
inductive Outcome (τ : Type := String) where
  | message (content : Example τ)
  | error (type : ErrorType) (message : Option τ)
  deriving DecidableEq, Repr

/-- What sets a block off: nothing, one message, or a list of them. -/
inductive When (τ : Type := String) where
  | nothing
  | one (content : Example τ)
  | many (examples : List (Example τ))
  deriving DecidableEq, Repr

def When.examples {τ : Type} : When τ → List (Example τ)
  | .nothing => []
  | .one e => [e]
  | .many es => es

def Outcome.example? {τ : Type} : Outcome τ → Option (Example τ)
  | .message e => some e
  | .error .. => none

/-- A block of examples: given, when, then. -/
structure Spec (τ : Type := String) where
  given : List (Example τ) := []
  when : When τ := .nothing
  outcomes : List (Outcome τ) := []
  deriving DecidableEq, Repr

/-- All examples of a block, in order. -/
def Spec.examples {τ : Type} (s : Spec τ) : List (Example τ) :=
  s.given ++ s.when.examples ++ s.outcomes.filterMap Outcome.example?

/-! ## Slices, flows and models -/

/-- What the user interface of a slice should do. -/
structure Client (τ : Type := String) where
  description : τ
  specs : List τ := []
  deriving DecidableEq, Repr

structure Server (τ : Type := String) where
  description : τ
  specs : List (Spec τ) := []
  data : List (Entry τ) := []
  deriving DecidableEq, Repr

/-- The server of a slice that does not say anything of it. -/
def Server.empty : Server := { description := "" }

structure Slice (τ : Type := String) where
  kind : SliceKind
  name : τ
  server : Server τ
  id : Option τ := none
  stream : Option τ := none
  client : Option (Client τ) := none
  request : Option τ := none
  deriving DecidableEq, Repr

structure Flow (τ : Type := String) where
  name : τ
  slices : List (Slice τ) := []
  id : Option τ := none
  description : Option τ := none
  deriving DecidableEq, Repr

structure Integration (τ : Type := String) where
  name : τ
  source : τ
  description : Option τ := none
  deriving DecidableEq, Repr

structure Model (τ : Type := String) (β : Type := Bool) (ν : Type := Int) where
  flows : List (Flow τ) := []
  messages : List (Message τ β ν) := []
  integrations : List (Integration τ) := []
  deriving DecidableEq, Repr

/-- A model as a document gives it. -/
abbrev LooseModel := Model Json Json Json

namespace Model

variable {τ β ν σ : Type} [Leaf τ] [Leaf σ]

def message? (m : Model τ β ν) (name : σ) : Option (Message τ β ν) :=
  m.messages.find? fun n => Leaf.isMatch n.name name

def flow? (m : Model τ β ν) (name : σ) : Option (Flow τ) :=
  m.flows.find? fun f => Leaf.isMatch f.name name

def integration? (m : Model τ β ν) (name : σ) : Option (Integration τ) :=
  m.integrations.find? fun i => Leaf.isMatch i.name name

/-- All slices, flow by flow. -/
def slices (m : Model τ β ν) : List (Slice τ) := m.flows.flatMap (·.slices)

/-- All examples, in order of writing. -/
def examples (m : Model τ β ν) : List (Example τ) :=
  m.slices.flatMap fun s => s.server.specs.flatMap Spec.examples

end Model

end EventFlow
