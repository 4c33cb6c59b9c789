import EventFlow.Leaf

/-!
Messages: commands, events and states, with the fields that they carry.
-/

namespace EventFlow

inductive MessageKind where
  | command
  | event
  | state
  deriving DecidableEq, Repr, Inhabited

namespace MessageKind

/-- All kinds, in the order in which listings name them. -/
def all : List MessageKind := [.command, .event, .state]

def word : MessageKind → String
  | .command => "command"
  | .event => "event"
  | .state => "state"

/-- The kind as a type name. -/
def typeName : MessageKind → String
  | .command => "Command"
  | .event => "Event"
  | .state => "State"

/-- The object whose methods build examples of the kind. -/
def builder : MessageKind → String
  | .command => "Commands"
  | .event => "Events"
  | .state => "State"

def ofWord? (s : String) : Option MessageKind := all.find? (·.word = s)

def ofTypeName? (s : String) : Option MessageKind := all.find? (·.typeName = s)

def ofBuilder? (s : String) : Option MessageKind := all.find? (·.builder = s)

end MessageKind

/-- A field of a message; a null default stands for none. -/
structure Field (τ : Type := String) (β : Type := Bool) where
  name : τ
  type : τ
  required : β
  description : Option τ := none
  default : Json := .null
  deriving DecidableEq, Repr

structure Message (τ : Type := String) (β : Type := Bool) (ν : Type := Int) where
  name : τ
  kind : MessageKind
  fields : List (Field τ β) := []
  description : Option τ := none
  version : ν
  deriving DecidableEq, Repr

/-- A message as a document gives it. -/
abbrev LooseMessage := Message Json Json Json

/-! ## Equality by meaning -/

variable {τ β ν τ' β' ν' : Type} [Leaf τ] [Leaf β] [Leaf ν] [Leaf τ'] [Leaf β'] [Leaf ν']

def Field.same (a : Field τ β) (b : Field τ' β') : Bool :=
  Leaf.same a.name b.name && Leaf.same a.type b.type && Leaf.same a.required b.required &&
    Leaf.sameOption a.description b.description && a.default.same b.default

def Message.same (a : Message τ β ν) (b : Message τ' β' ν') : Bool :=
  Leaf.same a.name b.name && a.kind == b.kind && sameAll Field.same a.fields b.fields &&
    Leaf.sameOption a.description b.description && Leaf.same a.version b.version

end EventFlow
