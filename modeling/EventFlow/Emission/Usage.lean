import EventFlow.Emission.Fault
import EventFlow.Text.Order

/-!
What the rendered code uses.

While flows are rendered, every function that they call and every message that they build is
noted; the imports and the builders are then declared from these notes. A failure keeps the notes
made before it.
-/

namespace EventFlow.Emission

/-- The functions and the messages of each kind that are used, in order of first use. -/
structure Usage where
  functions : List String := []
  commands : List String := []
  events : List String := []
  states : List String := []
  deriving DecidableEq, Repr

namespace Usage

def function (name : String) (u : Usage) : Usage :=
  { u with functions := Text.mention u.functions name }

def message (kind : MessageKind) (name : String) (u : Usage) : Usage :=
  match kind with
  | .command => { u with commands := Text.mention u.commands name }
  | .event => { u with events := Text.mention u.events name }
  | .state => { u with states := Text.mention u.states name }

def hasMessages (u : Usage) : Bool :=
  !(u.commands.isEmpty && u.events.isEmpty && u.states.isEmpty)

end Usage

/-- A rendering step, which notes what it uses. -/
abbrev Emit := ExceptT Fault (StateM Usage)

def useFunction (name : String) : Emit Unit := modify (Usage.function name)

def useMessage (kind : MessageKind) (name : String) : Emit Unit := modify (Usage.message kind name)

end EventFlow.Emission
