import EventFlow.Model.Equality

/-!
Models of several files, merged into one.

Each flow, message and integration is kept with the path of the file that defined it first. A file
conflicts with those before it if it defines a flow of the same name, or a message or an
integration of the same name that differs.
-/

namespace EventFlow.Project

structure Merge where
  flows : List (Flow × String) := []
  messages : List (Message × String) := []
  integrations : List (Integration × String) := []
  deriving DecidableEq, Repr

/-- What two files define differently, and the path of the one that came first. -/
inductive Conflict where
  | flow (name path : String)
  | message (name path : String)
  | integration (name path : String)
  deriving DecidableEq, Repr

def Conflict.text : Conflict → String
  | .flow name path => s!"Flow '{name}' is already defined in {path}"
  | .message name path => s!"Message '{name}' conflicts with its definition in {path}"
  | .integration name path => s!"Integration '{name}' conflicts with its definition in {path}"

namespace Merge

def flow? (m : Merge) (name : String) : Option (Flow × String) :=
  m.flows.find? (·.1.name = name)

def message? (m : Merge) (name : String) : Option (Message × String) :=
  m.messages.find? (·.1.name = name)

def integration? (m : Merge) (name : String) : Option (Integration × String) :=
  m.integrations.find? (·.1.name = name)

/-! ## Conflicts -/

def flowConflict? (m : Merge) (f : Flow) : Option Conflict :=
  (m.flow? f.name).map fun (_, path) => .flow f.name path

def messageConflict? (m : Merge) (n : Message) : Option Conflict :=
  match m.message? n.name with
  | some (known, path) => if known.same n then none else some (.message n.name path)
  | none => none

def integrationConflict? (m : Merge) (i : Integration) : Option Conflict :=
  match m.integration? i.name with
  | some (known, path) => if known = i then none else some (.integration i.name path)
  | none => none

/-- The first conflict of a model with what has been merged: flows, messages, integrations. -/
def conflict? (m : Merge) (model : Model) : Option Conflict :=
  ((model.flows.findSome? m.flowConflict?).or (model.messages.findSome? m.messageConflict?)).or
    (model.integrations.findSome? m.integrationConflict?)

/-! ## Merging -/

/-- Adds a model that has no conflict; what is known already is left as it is. -/
def add (m : Merge) (path : String) (model : Model) : Merge :=
  { flows := m.flows ++ model.flows.map (·, path)
    messages := m.messages ++
      (model.messages.filter fun n => (m.message? n.name).isNone).map (·, path)
    integrations := m.integrations ++
      (model.integrations.filter fun i => (m.integration? i.name).isNone).map (·, path) }

/-- The merged model. -/
def model (m : Merge) : Model :=
  ⟨m.flows.map (·.1), m.messages.map (·.1), m.integrations.map (·.1)⟩

end Merge

end EventFlow.Project
