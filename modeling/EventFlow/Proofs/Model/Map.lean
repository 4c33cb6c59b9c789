import EventFlow.Model.Basic
import Mathlib.Data.List.Basic

/-! Models over other leaves.

A model is mapped by changing its names and texts by `f`, truth values by `g`, versions by `h`, and
the data of examples, queries and defaults by `d`.  A model is a loose one when its leaves are taken
as document values:

    loose m = m.map value value value id

Nothing is lost by that. A map of a map is the map of the composed functions, and the map of `id`
changes nothing, so what can be undone for the leaves can be undone for the model. -/

namespace EventFlow

variable {τ σ β γ ν μ : Type}

/-! ## The parts of a model -/

/-- The example with another reference and other data. -/
def Example.map (f : τ → σ) (d : Json → Json) (e : Example τ) : Example σ := ⟨f e.ref, d e.data⟩

/-- The outcome over other leaves. -/
def Outcome.map (f : τ → σ) (d : Json → Json) : Outcome τ → Outcome σ
  | .message e => .message (e.map f d)
  | .error type note => .error type (note.map f)

def When.map (f : τ → σ) (d : Json → Json) : When τ → When σ
  | .nothing => .nothing
  | .one e => .one (e.map f d)
  | .many es => .many (es.map (·.map f d))

def Spec.map (f : τ → σ) (d : Json → Json) (s : Spec τ) : Spec σ :=
  ⟨s.given.map (·.map f d), s.when.map f d, s.outcomes.map (·.map f d)⟩

def Target.map (f : τ → σ) (t : Target τ) : Target σ := ⟨t.kind, f t.name⟩

def IntegrationMessage.map (f : τ → σ) (m : IntegrationMessage τ) : IntegrationMessage σ :=
  ⟨f m.name, f m.type⟩

def Destination.map (f : τ → σ) : Destination τ → Destination σ
  | .stream pattern => .stream (f pattern)
  | .integration systems message => .integration (systems.map f) (message.map (·.map f))
  | .database collection => .database (f collection)
  | .topic name => .topic (f name)

def Origin.map (f : τ → σ) (d : Json → Json) : Origin τ → Origin σ
  | .projection name idField => .projection (f name) (f idField)
  | .readModel name => .readModel (f name)
  | .database collection query => .database (f collection) (d query)
  | .api endpoint method => .api (f endpoint) (method.map f)
  | .integration systems => .integration (systems.map f)

/-- The entry over other leaves, and so the state that it looks up. -/
def Entry.map (f : τ → σ) (d : Json → Json) : Entry τ → Entry σ
  | .source target origin instructions =>
    .source (target.map f) (origin.map f d) (instructions.map f)
  | .sink target destination none instructions =>
    .sink (target.map f) (destination.map f) none (instructions.map f)
  | .sink target destination (some state) instructions =>
    .sink (target.map f) (destination.map f) (some (state.map f d)) (instructions.map f)

def Client.map (f : τ → σ) (c : Client τ) : Client σ := ⟨f c.description, c.specs.map f⟩

def Server.map (f : τ → σ) (d : Json → Json) (s : Server τ) : Server σ :=
  ⟨f s.description, s.specs.map (·.map f d), s.data.map (·.map f d)⟩

/-- The slice over other leaves; its kind stays. -/
def Slice.map (f : τ → σ) (d : Json → Json) (s : Slice τ) : Slice σ :=
  ⟨s.kind, f s.name, s.server.map f d, s.id.map f, s.stream.map f, s.client.map (·.map f),
    s.request.map f⟩

def Flow.map (f : τ → σ) (d : Json → Json) (w : Flow τ) : Flow σ :=
  ⟨f w.name, w.slices.map (·.map f d), w.id.map f, w.description.map f⟩

def Integration.map (f : τ → σ) (i : Integration τ) : Integration σ :=
  ⟨f i.name, f i.source, i.description.map f⟩

def Field.map (f : τ → σ) (g : β → γ) (d : Json → Json) (x : Field τ β) : Field σ γ :=
  ⟨f x.name, f x.type, g x.required, x.description.map f, d x.default⟩

/-- The message over other leaves; its kind stays. -/
def Message.map (f : τ → σ) (g : β → γ) (h : ν → μ) (d : Json → Json) (m : Message τ β ν) :
    Message σ γ μ :=
  ⟨f m.name, m.kind, m.fields.map (·.map f g d), m.description.map f, h m.version⟩

/-- The model over other leaves. -/
def Model.map (f : τ → σ) (g : β → γ) (h : ν → μ) (d : Json → Json) (m : Model τ β ν) :
    Model σ γ μ :=
  ⟨m.flows.map (·.map f d), m.messages.map (·.map f g h d), m.integrations.map (·.map f)⟩

/-! ## Maps that change nothing -/

section Identity

@[simp] theorem Example.map_id (e : Example τ) : e.map id id = e := rfl

@[simp] theorem Outcome.map_id (o : Outcome τ) : o.map id id = o := by
  cases o <;> simp [Outcome.map]

@[simp] theorem When.map_id (w : When τ) : w.map id id = w := by
  cases w <;> simp [When.map]

@[simp] theorem Spec.map_id (s : Spec τ) : s.map id id = s := by
  simp [Spec.map]

@[simp] theorem Target.map_id (t : Target τ) : t.map id = t := rfl

@[simp] theorem IntegrationMessage.map_id (m : IntegrationMessage τ) : m.map id = m := rfl

@[simp] theorem Destination.map_id (d : Destination τ) : d.map id = d := by
  cases d <;> simp [Destination.map]

@[simp] theorem Origin.map_id (o : Origin τ) : o.map id id = o := by
  cases o <;> simp [Origin.map]

/-- By induction on the states that are looked up. -/
@[simp] theorem Entry.map_id (e : Entry τ) : e.map id id = e := by
  fun_induction Entry.map id id e <;> simp_all

@[simp] theorem Client.map_id (c : Client τ) : c.map id = c := by
  simp [Client.map]

@[simp] theorem Server.map_id (s : Server τ) : s.map id id = s := by
  simp [Server.map]

@[simp] theorem map_id_slice (s : Slice τ) : s.map id id = s := by
  simp [Slice.map]

@[simp] theorem map_id_flow (f : Flow τ) : f.map id id = f := by
  simp [Flow.map]

@[simp] theorem Integration.map_id (i : Integration τ) : i.map id = i := by
  simp [Integration.map]

@[simp] theorem Field.map_id (f : Field τ β) : f.map id id id = f := by
  simp [Field.map]

@[simp] theorem Message.map_id (m : Message τ β ν) : m.map id id id id = m := by
  simp [Message.map]

/-- The map of `id` changes nothing in a model, since it changes nothing in the parts. -/
theorem Model.map_id (m : Model τ β ν) : m.map id id id id = m := by
  simp [Model.map]

end Identity

/-! ## Maps of maps -/

section Composition

variable {ρ δ κ : Type} (f : τ → σ) (f' : σ → ρ) (g : β → γ) (g' : γ → δ) (h : ν → μ) (h' : μ → κ)
  (d d' : Json → Json)

@[simp] theorem Example.map_map (e : Example τ) :
    (e.map f d).map f' d' = e.map (f' ∘ f) (d' ∘ d) := rfl

@[simp] theorem Outcome.map_map (o : Outcome τ) :
    (o.map f d).map f' d' = o.map (f' ∘ f) (d' ∘ d) := by
  cases o <;> simp [Outcome.map]

@[simp] theorem When.map_map (w : When τ) : (w.map f d).map f' d' = w.map (f' ∘ f) (d' ∘ d) := by
  cases w <;> simp [When.map]

@[simp] theorem Spec.map_map (s : Spec τ) : (s.map f d).map f' d' = s.map (f' ∘ f) (d' ∘ d) := by
  simp [Spec.map]

@[simp] theorem Target.map_map (t : Target τ) : (t.map f).map f' = t.map (f' ∘ f) := rfl

@[simp] theorem IntegrationMessage.map_map (m : IntegrationMessage τ) :
    (m.map f).map f' = m.map (f' ∘ f) := rfl

@[simp] theorem Destination.map_map (d : Destination τ) :
    (d.map f).map f' = d.map (f' ∘ f) := by
  cases d <;> simp [Destination.map, Function.comp_def]

@[simp] theorem Origin.map_map (o : Origin τ) :
    (o.map f d).map f' d' = o.map (f' ∘ f) (d' ∘ d) := by
  cases o <;> simp [Origin.map]

/-- A map of a map goes down to the states that are looked up. -/
@[simp] theorem Entry.map_map (e : Entry τ) :
    (e.map f d).map f' d' = e.map (f' ∘ f) (d' ∘ d) := by
  fun_induction Entry.map f d e <;> simp_all [Entry.map]

@[simp] theorem Client.map_map (c : Client τ) : (c.map f).map f' = c.map (f' ∘ f) := by
  simp [Client.map]

@[simp] theorem Server.map_map (s : Server τ) :
    (s.map f d).map f' d' = s.map (f' ∘ f) (d' ∘ d) := by
  simp [Server.map]

@[simp] theorem Slice.map_map (s : Slice τ) :
    (s.map f d).map f' d' = s.map (f' ∘ f) (d' ∘ d) := by
  simp [Slice.map, Function.comp_def]

@[simp] theorem Flow.map_map (w : Flow τ) :
    (w.map f d).map f' d' = w.map (f' ∘ f) (d' ∘ d) := by
  simp [Flow.map]

@[simp] theorem Integration.map_map (i : Integration τ) :
    (i.map f).map f' = i.map (f' ∘ f) := by
  simp [Integration.map]

@[simp] theorem Field.map_map (x : Field τ β) :
    (x.map f g d).map f' g' d' = x.map (f' ∘ f) (g' ∘ g) (d' ∘ d) := by
  simp [Field.map]

@[simp] theorem Message.map_map (m : Message τ β ν) :
    (m.map f g h d).map f' g' h' d' = m.map (f' ∘ f) (g' ∘ g) (h' ∘ h) (d' ∘ d) := by
  simp [Message.map]

/-- A map of a map is the map of the composed functions. -/
theorem Model.map_map (m : Model τ β ν) :
    (m.map f g h d).map f' g' h' d' = m.map (f' ∘ f) (g' ∘ g) (h' ∘ h) (d' ∘ d) := by
  simp [Model.map]

end Composition

/-! ## Loose models -/

variable [Leaf τ] [Leaf β] [Leaf ν]

/-- The model with its leaves as document values. -/
def Model.loose (m : Model τ β ν) : LooseModel := m.map Leaf.value Leaf.value Leaf.value id

/-- What a text says, which undoes taking a text as a value. -/
def Json.textValue : Json → String
  | .text s => s
  | _ => ""

def Json.boolValue : Json → Bool
  | .bool b => b
  | _ => false

def Json.intValue : Json → Int
  | .number (.int i) => i
  | _ => 0

/-- A model can be told from its loose one, since its leaves can be told from their values. -/
theorem Model.loose_injective : Function.Injective fun m : Model => m.loose := by
  let tight : LooseModel → Model := Model.map Json.textValue Json.boolValue Json.intValue id
  refine Function.LeftInverse.injective (g := tight) fun m => ?_
  exact (Model.map_map ..).trans (Model.map_id m)

end EventFlow
