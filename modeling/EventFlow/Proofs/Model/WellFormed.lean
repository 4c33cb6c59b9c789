import EventFlow.Model.Basic

/-! Well-formed models.

The parts of a slice refer to messages and integrations by name.  They fit together when every
example names a message, what sets a block off has the form and the kind of message that the
slice asks for, only commands expect errors, and every exchange with integrations names some that
exist.  The predicates take what is known of names as parameters, so that they can be stated while
the messages are still being found:

    known ref kind      the message `ref` is of that kind
    listed name         there is an integration of that name -/

namespace EventFlow

variable {known known' : String → MessageKind → Prop} {listed listed' : String → Prop}

/-! ## Blocks -/

/-- What sets a block off fits a slice of that kind. -/
def When.Fits (known : String → MessageKind → Prop) : SliceKind → When → Prop
  | .command, .one e => known e.ref .command
  | .react, .many es => ∀ e ∈ es, known e.ref .event
  | .query, .nothing => True
  | _, _ => False

structure Spec.Fits (known : String → MessageKind → Prop) (kind : SliceKind) (s : Spec) :
    Prop where
  refs : ∀ e ∈ s.examples, ∃ k, known e.ref k
  trigger : s.when.Fits known kind
  errors : ∀ type message, Outcome.error type message ∈ s.outcomes → kind = .command

theorem When.Fits.mono (hk : ∀ ref kind, known ref kind → known' ref kind) {kind : SliceKind}
    {w : When} (h : w.Fits known kind) : w.Fits known' kind := by
  cases kind <;> cases w <;> try exact h
  · exact hk _ _ h
  · exact fun e he => hk _ _ (h e he)

theorem Spec.Fits.mono (hk : ∀ ref kind, known ref kind → known' ref kind) {kind : SliceKind}
    {s : Spec} (h : s.Fits known kind) : s.Fits known' kind where
  refs e he := by
    obtain ⟨k, hek⟩ := h.refs e he
    exact ⟨k, hk _ _ hek⟩
  trigger := h.trigger.mono hk
  errors := h.errors

/-! ## Pipelines -/

/-- An exchange with integrations names at least one, and only those that there are. -/
def Systems.Linked (listed : String → Prop) (systems : List String) : Prop :=
  systems ≠ [] ∧ ∀ name ∈ systems, listed name

def Destination.Linked (listed : String → Prop) : Destination → Prop
  | .integration systems _ => Systems.Linked listed systems
  | _ => True

def Origin.Linked (listed : String → Prop) : Origin → Prop
  | .integration systems => Systems.Linked listed systems
  | _ => True

/-- Entries inside others count as well. -/
def Entry.Linked (listed : String → Prop) : Entry → Prop
  | .source _ origin _ => origin.Linked listed
  | .sink _ destination none _ => destination.Linked listed
  | .sink _ destination (some state) _ => destination.Linked listed ∧ state.Linked listed

theorem Systems.Linked.mono (hl : ∀ name, listed name → listed' name) {systems : List String}
    (h : Systems.Linked listed systems) : Systems.Linked listed' systems :=
  ⟨h.1, fun name hn => hl name (h.2 name hn)⟩

theorem Destination.Linked.mono (hl : ∀ name, listed name → listed' name) {d : Destination}
    (h : d.Linked listed) : d.Linked listed' := by
  cases d <;> try trivial
  exact Systems.Linked.mono hl h

theorem Origin.Linked.mono (hl : ∀ name, listed name → listed' name) {o : Origin}
    (h : o.Linked listed) : o.Linked listed' := by
  cases o <;> try trivial
  exact Systems.Linked.mono hl h

theorem Entry.Linked.mono (hl : ∀ name, listed name → listed' name) (e : Entry)
    (h : e.Linked listed) : e.Linked listed' := by
  fun_induction Entry.Linked listed e with
  | case1 _ origin _ => exact Origin.Linked.mono hl h
  | case2 _ destination _ => exact Destination.Linked.mono hl h
  | case3 _ destination state _ ih => exact ⟨Destination.Linked.mono hl h.1, ih h.2⟩

/-- The integrations that a linked entry names are all there. -/
theorem Entry.Linked.systems (e : Entry) (h : e.Linked listed) :
    ∀ name ∈ e.systems, listed name := by
  fun_induction Entry.Linked listed e with
  | case1 _ origin _ =>
    cases origin <;> simp_all [Entry.systems, Origin.Linked, Systems.Linked]
  | case2 _ destination _ =>
    cases destination <;> simp_all [Entry.systems, Destination.Linked, Systems.Linked]
  | case3 _ destination state _ ih =>
    intro name hn
    cases destination with
    | integration systems message =>
      simp only [Entry.systems, List.mem_append] at hn
      rcases hn with hn | hn
      · exact h.1.2 name hn
      · exact ih h.2 name hn
    | stream _ | database _ | topic _ =>
      simp only [Entry.systems, List.nil_append] at hn
      exact ih h.2 name hn

theorem Systems.Linked.and {systems : List String} (hnames : ∀ name ∈ systems, listed name)
    (h : Systems.Linked listed' systems) :
    Systems.Linked (fun name => listed name ∧ listed' name) systems :=
  ⟨h.1, fun name hn => ⟨hnames name hn, h.2 name hn⟩⟩

/-- A linked entry whose integrations all have a further property is linked by it as well. -/
theorem Entry.Linked.and (e : Entry) (hnames : ∀ name ∈ e.systems, listed name)
    (h : e.Linked listed') : e.Linked fun name => listed name ∧ listed' name := by
  fun_induction Entry.Linked listed' e with
  | case1 _ origin _ =>
    cases origin with
    | integration systems => exact Systems.Linked.and hnames h
    | _ => trivial
  | case2 _ destination _ =>
    cases destination with
    | integration systems message => exact Systems.Linked.and hnames h
    | _ => trivial
  | case3 _ destination state _ ih =>
    cases destination with
    | integration systems message =>
      simp only [Entry.systems, List.mem_append] at hnames
      exact ⟨Systems.Linked.and (fun name hn => hnames name (Or.inl hn)) h.1,
        ih (fun name hn => hnames name (Or.inr hn)) h.2⟩
    | _ => exact ⟨trivial, ih (by simpa [Entry.systems] using hnames) h.2⟩

/-! ## Models -/

structure Slice.Fits (known : String → MessageKind → Prop) (listed : String → Prop) (s : Slice) :
    Prop where
  specs : ∀ b ∈ s.server.specs, b.Fits known s.kind
  data : ∀ e ∈ s.server.data, e.Linked listed

theorem Slice.Fits.mono (hk : ∀ ref kind, known ref kind → known' ref kind)
    (hl : ∀ name, listed name → listed' name) {s : Slice} (h : s.Fits known listed) :
    s.Fits known' listed' :=
  ⟨fun b hb => (h.specs b hb).mono hk, fun e he => Entry.Linked.mono hl e (h.data e he)⟩

namespace Model

/-- The model has a message of that name and kind. -/
def HasMessage (m : Model) (ref : String) (kind : MessageKind) : Prop :=
  ∃ n ∈ m.messages, n.name = ref ∧ n.kind = kind

def HasIntegration (m : Model) (name : String) : Prop := ∃ i ∈ m.integrations, i.name = name

/-- Names are distinct, and the slices of all flows fit the messages and the integrations. -/
structure WellFormed (m : Model) : Prop where
  messageNames : (m.messages.map (·.name)).Nodup
  flowNames : (m.flows.map (·.name)).Nodup
  integrationNames : (m.integrations.map (·.name)).Nodup
  fieldNames : ∀ n ∈ m.messages, (n.fields.map (·.name)).Nodup
  slices : ∀ f ∈ m.flows, ∀ s ∈ f.slices, s.Fits m.HasMessage m.HasIntegration

end Model

end EventFlow
