import EventFlow.Json.Order
import EventFlow.Model.Basic

/-!
Equality of models by meaning.

Flows are compared in order; messages and integrations are compared by name, whatever their
order. Example data are equal when they mean the same. Models whose names have no order are not
compared:

    same? a b = some (same a b)        if the names of a and b can be sorted
-/

namespace EventFlow

variable {τ β ν τ' β' ν' : Type} [Leaf τ] [Leaf β] [Leaf ν] [Leaf τ'] [Leaf β'] [Leaf ν']

/-! ## The parts of a model -/

def Example.same (a : Example τ) (b : Example τ') : Bool :=
  Leaf.same a.ref b.ref && a.data.same b.data

def Outcome.same : Outcome τ → Outcome τ' → Bool
  | .message a, .message b => a.same b
  | .error s m, .error t n => s == t && Leaf.sameOption m n
  | _, _ => false

def When.same : When τ → When τ' → Bool
  | .nothing, .nothing => true
  | .one a, .one b => a.same b
  | .many as, .many bs => sameAll Example.same as bs
  | _, _ => false

def Spec.same (a : Spec τ) (b : Spec τ') : Bool :=
  sameAll Outcome.same a.outcomes b.outcomes && sameAll Example.same a.given b.given &&
    a.when.same b.when

def Client.same (a : Client τ) (b : Client τ') : Bool :=
  Leaf.same a.description b.description && sameAll Leaf.same a.specs b.specs

def Client.sameOption : Option (Client τ) → Option (Client τ') → Bool
  | none, none => true
  | some a, some b => a.same b
  | _, _ => false

def Server.same (a : Server τ) (b : Server τ') : Bool :=
  Leaf.same a.description b.description && sameAll Spec.same a.specs b.specs &&
    sameAll Entry.same a.data b.data

def Slice.same (a : Slice τ) (b : Slice τ') : Bool :=
  a.kind == b.kind && Leaf.same a.name b.name && a.server.same b.server &&
    Leaf.sameOption a.id b.id && Leaf.sameOption a.stream b.stream &&
    Client.sameOption a.client b.client && Leaf.sameOption a.request b.request

def Flow.same (a : Flow τ) (b : Flow τ') : Bool :=
  Leaf.same a.name b.name && sameAll Slice.same a.slices b.slices && Leaf.sameOption a.id b.id &&
    Leaf.sameOption a.description b.description

def Integration.same (a : Integration τ) (b : Integration τ') : Bool :=
  Leaf.same a.name b.name && Leaf.same a.source b.source &&
    Leaf.sameOption a.description b.description

/-! ## Models -/

/-- Messages in ascending order of their names. -/
def Message.byName (ms : List (Message τ β ν)) : List (Message τ β ν) :=
  ms.mergeSort fun a b => (Leaf.value a.name).notAfter (Leaf.value b.name)

/-- Integrations in ascending order of their names. -/
def Integration.byName (is : List (Integration τ)) : List (Integration τ) :=
  is.mergeSort fun a b => (Leaf.value a.name).notAfter (Leaf.value b.name)

def Message.sameByName (as : List (Message τ β ν)) (bs : List (Message τ' β' ν')) : Bool :=
  sameAll Message.same (Message.byName as) (Message.byName bs)

def Integration.sameByName (as : List (Integration τ)) (bs : List (Integration τ')) : Bool :=
  sameAll Integration.same (Integration.byName as) (Integration.byName bs)

def Model.same (a : Model τ β ν) (b : Model τ' β' ν') : Bool :=
  sameAll Flow.same a.flows b.flows && Message.sameByName a.messages b.messages &&
    Integration.sameByName a.integrations b.integrations

/-- Whether some names can be put in order. -/
def sortableNames (names : List τ) : Bool := Json.sortable (names.map Leaf.value)

/-- Equality of models, as far as it has to be known: what differs earlier is not sorted. -/
def Model.same? (a : Model τ β ν) (b : Model τ' β' ν') : Option Bool :=
  if !sameAll Flow.same a.flows b.flows then some false
  else if !(sortableNames (a.messages.map (·.name)) && sortableNames (b.messages.map (·.name))) then
    none
  else if !Message.sameByName a.messages b.messages then some false
  else if !(sortableNames (a.integrations.map (·.name)) &&
      sortableNames (b.integrations.map (·.name))) then none
  else some (Integration.sameByName a.integrations b.integrations)

end EventFlow
