import EventFlow.Json.Order
import EventFlow.Model.Basic

/-!
The types that a pipeline exchanges with integrations.

These are the messages that integrations are sent under a name of their own, and the states that
are looked up from an integration. A lookup that is no source has no origin, and so no answer; nor
is there one when the names cannot be collected or put in order.
-/

namespace EventFlow

/-- Why the types are not known. -/
inductive ExchangeFault where
  | stateNotSource
  | names
  deriving DecidableEq, Repr

variable {τ β ν : Type} [Leaf τ]

/-- A name as the only member of a set. -/
def nameSet (name : τ) : Except ExchangeFault (List Json) :=
  if (Leaf.value name).isKey then .ok [Leaf.value name] else .error .names

/-- The state that an entry looks up from an integration. -/
def Entry.lookupType : (state : Entry τ) → Except ExchangeFault (List Json)
  | .source target (.integration _) _ => nameSet target.name
  | .source .. => .ok []
  | .sink .. => .error .stateNotSource

/-- The message that an integration is sent. -/
def Destination.sentType : Destination τ → Except ExchangeFault (List Json)
  | .integration _ (some message) => nameSet message.name
  | _ => .ok []

/-- The types that an entry exchanges with integrations. -/
def Entry.integrationTypes : Entry τ → Except ExchangeFault (List Json)
  | .source .. => .ok []
  | .sink _ destination none _ => destination.sentType
  | .sink _ destination (some state) _ => do
    let sent ← destination.sentType
    let found ← state.lookupType
    return sent ++ found

/-- Names in ascending order, each once. -/
def orderedNames (names : List Json) : Except ExchangeFault (List Json) :=
  if Json.sortable (Json.distinct names) then .ok (Json.ascendingSet names) else .error .names

/-- The types that a slice exchanges with integrations. -/
def Slice.integrationTypes (s : Slice τ) : Except ExchangeFault (List Json) := do
  orderedNames (← s.server.data.mapM Entry.integrationTypes).flatten

/-- The types that the flows of a model exchange with integrations. -/
def Model.integrationTypes (m : Model τ β ν) : Except ExchangeFault (List Json) := do
  orderedNames (← m.slices.mapM Slice.integrationTypes).flatten

end EventFlow
