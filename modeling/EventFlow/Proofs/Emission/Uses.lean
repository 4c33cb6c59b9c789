import EventFlow.Emission.Source
import EventFlow.Proofs.Emission.Verdict

/-! The imports and the builders list what the flows use.

What is used is noted while the flows are rendered, step by step, and read when all of them are
rendered. Here it is read off the model: each part of a slice calls some functions, and each example
builds the message that it refers to. `Notes m x P fs es` says what a step has noted once it has
succeeded:

    the functions fs, and the messages that the examples es refer to, in this order

A chain of steps notes what its steps note, one after the other, so the notes of the flows are the
calls and the examples of all slices. -/

namespace EventFlow

open Text

variable {τ β ν : Type} (indent : String)

/-! ## What a model uses -/

/-- The state that an entry looks up. -/
def Entry.state? : Entry τ → Option (Entry τ)
  | .source .. => none
  | .sink _ _ state _ => state

/-- States are looked up from sources. -/
def Server.LooksUpSources (s : Server τ) : Prop :=
  ∀ e ∈ s.data, ∀ state ∈ e.state?, state.isSource = true

/-- Whether a function of the language is called for a slice. -/
def Slice.uses (s : Slice τ) : String → Bool
  | "specs" => s.client.isSome || !s.server.specs.isEmpty
  | "should" => s.client.any fun c => !c.specs.isEmpty
  | "gql" => s.request.isSome
  | "data" => !s.server.data.isEmpty
  | "sink" => s.server.data.any fun e => !e.isSource
  | "source" => s.server.data.any fun e => e.isSource || e.state?.isSome
  | "given" => s.server.specs.any fun b => !b.given.isEmpty || s.kind = .query
  | "when" => !s.server.specs.isEmpty && (s.kind = .command || s.kind = .react)
  | name => name = s.kind.word

/-- Whether a function of the language is called in the source text of a model. -/
def Model.uses (m : Model τ β ν) : String → Bool
  | "flow" => !m.flows.isEmpty
  | "createBuilders" => !m.examples.isEmpty
  | name => m.slices.any fun s => s.uses name

/-! ## The functions that are called -/

/-- The functions that an entry calls, in order. -/
def Entry.calls : Entry τ → List String
  | .source .. => ["source"]
  | .sink _ _ none _ => ["sink"]
  | .sink _ _ (some state) _ => "sink" :: state.calls

/-- The functions that a block of a slice calls, in order; it calls one even if the chain is
empty. -/
def Spec.calls (kind : SliceKind) (b : Spec τ) : List String :=
  "specs" :: (if b.given.isEmpty then [] else ["given"]) ++
    (if kind = .query then [] else ["when"]) ++
    (if b.given.isEmpty ∧ kind = .query then ["given"] else [])

def Client.calls (c : Client τ) : List String := "specs" :: c.specs.flatMap fun _ => ["should"]

def Server.calls (kind : SliceKind) (s : Server τ) : List String :=
  (if s.data.isEmpty then [] else "data" :: s.data.flatMap Entry.calls) ++
    s.specs.flatMap (Spec.calls kind)

/-- The functions that are called for a slice, in order. -/
def Slice.calls (s : Slice τ) : List String :=
  s.kind.word :: (s.client.toList.flatMap Client.calls ++
    ((if s.request.isSome then ["gql"] else []) ++ s.server.calls s.kind))

def Flow.calls (f : Flow τ) : List String := "flow" :: f.slices.flatMap Slice.calls

theorem Entry.mem_calls {e : Entry τ} (h : ∀ state ∈ e.state?, state.isSource = true)
    (name : String) : name ∈ e.calls ↔ (name = "sink" ∧ e.isSource = false) ∨
      (name = "source" ∧ (e.isSource || e.state?.isSome) = true) := by
  cases e with
  | source => simp [calls, isSource]
  | sink target destination state instructions =>
    cases state with
    | none => simp [calls, isSource, state?]
    | some state =>
      cases state with
      | source => simp [calls, isSource, state?]
      | sink => exact absurd (h _ rfl) (by simp [isSource])

theorem Spec.mem_calls (kind : SliceKind) (b : Spec τ) (name : String) :
    name ∈ b.calls kind ↔ name = "specs" ∨
      (name = "given" ∧ (b.given.isEmpty = false ∨ kind = .query)) ∨
        (name = "when" ∧ kind ≠ .query) := by
  cases kind <;> cases hgiven : b.given.isEmpty <;> simp [calls, hgiven]

theorem Client.mem_calls (c : Client τ) (name : String) :
    name ∈ c.calls ↔ name = "specs" ∨ (name = "should" ∧ c.specs ≠ []) := by
  rw [calls, List.mem_cons, List.mem_flatMap]
  apply or_congr_right
  constructor
  · rintro ⟨t, ht, hname⟩
    exact ⟨List.mem_singleton.1 hname, List.ne_nil_of_mem ht⟩
  · rintro ⟨rfl, hspecs⟩
    obtain ⟨t, ht⟩ := List.exists_mem_of_ne_nil _ hspecs
    exact ⟨t, ht, List.mem_singleton_self _⟩

theorem Server.mem_calls {s : Server τ} (kind : SliceKind) (h : s.LooksUpSources) (name : String) :
    name ∈ s.calls kind ↔ (name = "data" ∧ s.data ≠ []) ∨
      (name = "sink" ∧ ∃ e ∈ s.data, e.isSource = false) ∨
      (name = "source" ∧ ∃ e ∈ s.data, (e.isSource || e.state?.isSome) = true) ∨
      (name = "specs" ∧ s.specs ≠ []) ∨
      (name = "given" ∧ ∃ b ∈ s.specs, b.given.isEmpty = false ∨ kind = .query) ∨
      (name = "when" ∧ s.specs ≠ [] ∧ kind ≠ .query) := by
  have hdata : name ∈ s.data.flatMap Entry.calls ↔
      (name = "sink" ∧ ∃ e ∈ s.data, e.isSource = false) ∨
        (name = "source" ∧ ∃ e ∈ s.data, (e.isSource || e.state?.isSome) = true) := by
    rw [List.mem_flatMap]
    constructor
    · rintro ⟨e, he, hname⟩
      rcases (Entry.mem_calls (h e he) name).1 hname with ⟨hname, hsource⟩ | ⟨hname, hsource⟩
      · exact Or.inl ⟨hname, e, he, hsource⟩
      · exact Or.inr ⟨hname, e, he, hsource⟩
    · rintro (⟨hname, e, he, hsource⟩ | ⟨hname, e, he, hsource⟩)
      · exact ⟨e, he, (Entry.mem_calls (h e he) name).2 (Or.inl ⟨hname, hsource⟩)⟩
      · exact ⟨e, he, (Entry.mem_calls (h e he) name).2 (Or.inr ⟨hname, hsource⟩)⟩
  have hspecs : name ∈ s.specs.flatMap (Spec.calls kind) ↔ (name = "specs" ∧ s.specs ≠ []) ∨
      (name = "given" ∧ ∃ b ∈ s.specs, b.given.isEmpty = false ∨ kind = .query) ∨
      (name = "when" ∧ s.specs ≠ [] ∧ kind ≠ .query) := by
    rw [List.mem_flatMap]
    simp only [Spec.mem_calls]
    constructor
    · rintro ⟨b, hb, hname | ⟨hname, hgiven⟩ | ⟨hname, hkind⟩⟩
      · exact Or.inl ⟨hname, List.ne_nil_of_mem hb⟩
      · exact Or.inr (Or.inl ⟨hname, b, hb, hgiven⟩)
      · exact Or.inr (Or.inr ⟨hname, List.ne_nil_of_mem hb, hkind⟩)
    · rintro (⟨hname, hne⟩ | ⟨hname, b, hb, hgiven⟩ | ⟨hname, hne, hkind⟩)
      · obtain ⟨b, hb⟩ := List.exists_mem_of_ne_nil _ hne
        exact ⟨b, hb, Or.inl hname⟩
      · exact ⟨b, hb, Or.inr (Or.inl ⟨hname, hgiven⟩)⟩
      · obtain ⟨b, hb⟩ := List.exists_mem_of_ne_nil _ hne
        exact ⟨b, hb, Or.inr (Or.inr ⟨hname, hkind⟩)⟩
  have hown : name ∈ (if s.data.isEmpty then [] else "data" :: s.data.flatMap Entry.calls) ↔
      (name = "data" ∧ s.data ≠ []) ∨ name ∈ s.data.flatMap Entry.calls := by
    cases s.data <;> simp
  rw [calls, List.mem_append, hown, hdata, hspecs]
  simp only [or_assoc]

/-- A function is called for a slice just if the slice uses it. -/
theorem Slice.mem_calls {s : Slice τ} (h : s.server.LooksUpSources) (name : String) :
    name ∈ s.calls ↔ s.uses name = true := by
  have hrequest : name ∈ (if s.request.isSome then ["gql"] else []) ↔
      name = "gql" ∧ s.request.isSome = true := by
    cases s.request <;> simp
  -- the function that a slice is named for is none of the others
  have hword : ∀ name ∈ ["specs", "should", "gql", "data", "sink", "source", "given", "when"],
      name ≠ s.kind.word := by
    cases s.kind <;> decide
  have hwhen : s.kind ≠ .query ↔ s.kind = .command ∨ s.kind = .react := by
    cases s.kind <;> decide
  simp only [List.forall_mem_cons] at hword
  simp only [calls, List.mem_cons, List.mem_append, Server.mem_calls s.kind h, List.mem_flatMap,
    Client.mem_calls, Option.mem_toList, hrequest, hwhen]
  unfold Slice.uses
  split
  case h_1 => simp [hword, Option.isSome_iff_exists]
  case h_2 => cases s.client <;> simp [hword]
  case h_9 => simp_all
  all_goals simp [hword]

namespace Model

theorem uses_iff (m : Model τ β ν) (name : String) :
    m.uses name = true ↔ (name = "flow" ∧ m.flows ≠ []) ∨
      (name = "createBuilders" ∧ m.examples ≠ []) ∨ ∃ s ∈ m.slices, s.uses name = true := by
  have hflow : ∀ s ∈ m.slices, s.uses "flow" = false := by
    intro s _
    cases hkind : s.kind <;> simp [Slice.uses, hkind, SliceKind.word]
  have hbuilders : ∀ s ∈ m.slices, s.uses "createBuilders" = false := by
    intro s _
    cases hkind : s.kind <;> simp [Slice.uses, hkind, SliceKind.word]
  unfold uses
  split
  · simp +contextual [hflow]
  · simp +contextual [hbuilders]
  · next hflow' hbuilders' =>
    have hne : name ≠ "flow" ∧ name ≠ "createBuilders" := ⟨hflow', hbuilders'⟩
    simp [hne]

/-- Only functions of the language are used. -/
theorem mem_of_uses (m : Model τ β ν) {name : String} (h : m.uses name = true) :
    name ∈ Emission.dslFunctions := by
  rcases (m.uses_iff name).1 h with ⟨rfl, -⟩ | ⟨rfl, -⟩ | ⟨s, -, hs⟩
  · decide
  · decide
  · unfold Slice.uses at hs
    split at hs
    case h_9 =>
      rw [of_decide_eq_true hs]
      cases s.kind <;> decide
    all_goals decide

theorem mem_calls {m : Model τ β ν} (h : ∀ s ∈ m.slices, s.server.LooksUpSources)
    (name : String) : name ∈ m.flows.flatMap Flow.calls ↔
      (name = "flow" ∧ m.flows ≠ []) ∨ ∃ s ∈ m.slices, s.uses name = true := by
  have hslice : ∀ s ∈ m.slices, (name ∈ s.calls ↔ s.uses name = true) := fun s hs =>
    Slice.mem_calls (h s hs) name
  constructor
  · intro hname
    obtain ⟨f, hf, hname⟩ := List.mem_flatMap.1 hname
    rcases List.mem_cons.1 hname with rfl | hname
    · exact Or.inl ⟨rfl, List.ne_nil_of_mem hf⟩
    · obtain ⟨s, hs, hname⟩ := List.mem_flatMap.1 hname
      have hs : s ∈ m.slices := List.mem_flatMap.2 ⟨f, hf, hs⟩
      exact Or.inr ⟨s, hs, (hslice s hs).1 hname⟩
  · rintro (⟨rfl, hflows⟩ | ⟨s, hs, huses⟩)
    · obtain ⟨f, hf⟩ := List.exists_mem_of_ne_nil _ hflows
      exact List.mem_flatMap.2 ⟨f, hf, List.mem_cons_self⟩
    · have hname := (hslice s hs).2 huses
      obtain ⟨f, hf, hs⟩ := List.mem_flatMap.1 hs
      exact List.mem_flatMap.2 ⟨f, hf, List.mem_cons_of_mem _ (List.mem_flatMap.2 ⟨s, hs, hname⟩)⟩

end Model

/-! ## The messages that are built -/

variable [Leaf τ]

/-- The kind and the name of the message that an example refers to, if there is one. -/
def Model.mention? (m : Model τ β ν) (e : Example τ) : Option (MessageKind × String) :=
  match m.message? e.ref, (Leaf.value e.ref).text? with
  | some n, some name => some (n.kind, name)
  | _, _ => none

/-- The names of the messages of one kind. -/
def named (kind : MessageKind) (ms : List (MessageKind × String)) : List String :=
  (ms.filter fun n => n.1 = kind).map (·.2)

/-- The messages of one kind that the examples refer to, in order of first occurrence. -/
def Model.refs (m : Model τ β ν) (kind : MessageKind) : List String :=
  (named kind (m.examples.filterMap m.mention?)).eraseDups

namespace Emission

variable {α γ : Type} {m : Model τ β ν}

/-! ## Notes -/

/-- The usage with more functions and messages. -/
def Usage.after (u : Usage) (fs : List String) (ms : List (MessageKind × String)) : Usage where
  functions := fs.foldl mention u.functions
  commands := (named .command ms).foldl mention u.commands
  events := (named .event ms).foldl mention u.events
  states := (named .state ms).foldl mention u.states

@[simp] theorem named_append (kind : MessageKind) (ms ns : List (MessageKind × String)) :
    named kind (ms ++ ns) = named kind ms ++ named kind ns := by
  simp [named]

theorem Usage.after_after (u : Usage) (fs gs : List String) (ms ns : List (MessageKind × String)) :
    (u.after fs ms).after gs ns = u.after (fs ++ gs) (ms ++ ns) := by
  simp [after]

theorem Usage.after_message (u : Usage) (kind : MessageKind) (name : String) :
    u.message kind name = u.after [] [(kind, name)] := by
  cases kind <;> rfl

/-- Once the step has succeeded, it has noted the functions and the messages of the examples, and
its result is as `P` says. -/
def Notes (m : Model τ β ν) (x : Emit α) (P : α → Prop) (fs : List String)
    (es : List (Example τ)) : Prop :=
  ∀ u a u', x.run u = (.ok a, u') →
    P a ∧ ∃ ms, List.Forall₂ (fun e n => m.mention? e = some n) es ms ∧ u' = u.after fs ms

namespace Notes

variable {x : Emit α} {k : α → Emit γ} {P : α → Prop} {Q : γ → Prop} {fs gs : List String}
  {es ds : List (Example τ)}

theorem congr (h : Notes m x P fs es) (hfs : fs = gs) (hes : es = ds) : Notes m x P gs ds :=
  hfs ▸ hes ▸ h

theorem lift {y : Except Fault α} (h : ∀ a, y = .ok a → P a) :
    Notes m (liftM y : Emit α) P [] [] := by
  intro u a u' hrun
  cases y with
  | ok b =>
    cases hrun
    exact ⟨h _ rfl, [], .nil, rfl⟩
  | error fault => cases hrun

theorem quiet (y : Except Fault α) : Notes m (liftM y : Emit α) (fun _ => True) [] [] :=
  lift fun _ _ => trivial

theorem pure {a : α} (h : P a) : Notes m (pure a : Emit α) P [] [] := by
  intro u b u' hrun
  cases hrun
  exact ⟨h, [], .nil, rfl⟩

theorem throw (fault : Fault) : Notes m (throw fault : Emit α) P fs es := by
  intro u a u' hrun
  cases hrun

theorem useFunction (name : String) :
    Notes m (useFunction name) (fun _ => True) [name] [] := by
  intro u a u' hrun
  cases hrun
  exact ⟨trivial, [], .nil, rfl⟩

theorem useMessage {e : Example τ} {kind : MessageKind} {name : String}
    (h : m.mention? e = some (kind, name)) :
    Notes m (useMessage kind name) (fun _ => True) [] [e] := by
  intro u a u' hrun
  cases hrun
  exact ⟨trivial, [(kind, name)], .cons h .nil, u.after_message kind name⟩

/-- A chain of steps notes what its steps note. -/
theorem bind (hx : Notes m x P fs es) (hk : ∀ a, P a → Notes m (k a) Q gs ds) :
    Notes m (x >>= k) Q (fs ++ gs) (es ++ ds) := by
  intro u b u'' hrun
  rw [Accepts.run_bind] at hrun
  cases hfirst : x.run u with
  | mk r u' =>
    rw [hfirst] at hrun
    cases r with
    | error fault => cases hrun
    | ok a =>
      obtain ⟨ha, ms, hms, rfl⟩ := hx u a u' hfirst
      obtain ⟨hb, ns, hns, rfl⟩ := hk a ha _ b u'' hrun
      exact ⟨hb, ms ++ ns, List.rel_append hms hns, u.after_after fs gs ms ns⟩

/-- What follows a step and notes nothing does not change what it notes. -/
theorem andThen (hx : Notes m x P fs es) (hk : ∀ a, P a → Notes m (k a) Q [] []) :
    Notes m (x >>= k) Q fs es :=
  (hx.bind hk).congr (List.append_nil fs) (List.append_nil es)

theorem mapM {f : α → Emit γ} {fs : α → List String} {es : α → List (Example τ)} (as : List α)
    (h : ∀ a, Notes m (f a) (fun _ => True) (fs a) (es a)) :
    Notes m (as.mapM f) (fun _ => True) (as.flatMap fs) (as.flatMap es) := by
  induction as with
  | nil => exact pure trivial
  | cons a as ih =>
    rw [List.mapM_cons, List.flatMap_cons, List.flatMap_cons]
    exact (h a).bind fun b _ => ih.andThen fun bs _ => pure trivial

theorem mapM_functions {f : α → Emit γ} {fs : α → List String} (as : List α)
    (h : ∀ a, Notes m (f a) (fun _ => True) (fs a) []) :
    Notes m (as.mapM f) (fun _ => True) (as.flatMap fs) [] :=
  (mapM as h).congr rfl (List.flatMap_eq_nil_iff.2 fun _ _ => rfl)

theorem mapM_examples {f : α → Emit γ} {es : α → List (Example τ)} (as : List α)
    (h : ∀ a, Notes m (f a) (fun _ => True) [] (es a)) :
    Notes m (as.mapM f) (fun _ => True) [] (as.flatMap es) :=
  (mapM as h).congr (List.flatMap_eq_nil_iff.2 fun _ _ => rfl) rfl

end Notes

/-! ## Blocks -/

theorem value_of_isMatch {name : String} {v : Json} (h : (Json.text name).isMatch v = true) :
    v = .text name := by
  cases v <;> simp [Json.isMatch, Json.same] at h
  rw [h.1]

theorem mention?_eq {e : Example τ} {n : Message τ β ν} {name : String}
    (hn : m.message? e.ref = some n) (hname : Leaf.value n.name = .text name) :
    m.mention? e = some (n.kind, name) := by
  unfold Model.message? at hn
  have hmatch := List.find?_some hn
  unfold Leaf.isMatch at hmatch
  rw [hname] at hmatch
  simp [Model.mention?, Model.message?, hn, value_of_isMatch hmatch, Json.text?]

theorem value_of_identifier {fault : String → Fault} {leaf : τ} {name : String}
    (h : identifier fault leaf = .ok name) : Leaf.value leaf = .text name := by
  obtain ⟨name', hname, h⟩ := bind_eq_ok.1 h
  have heq : name' = name := by
    split at h <;> cases h
    rfl
  unfold nameText at hname
  split at hname
  · next s hs => rw [hs, Except.ok.inj hname, heq]
  · cases hname

/-- An example notes the message that it refers to. -/
theorem notes_exampleCall (expected : Option MessageKind) (e : Example τ) :
    Notes m (exampleCall m expected e) (fun _ => True) [] [e] := by
  rcases exampleCall_cases m e expected with ⟨-, h⟩ | ⟨n, hn, ⟨_, -, -, h⟩ | ⟨-, h⟩⟩ <;> rw [h]
  · exact Notes.throw _
  · exact Notes.throw _
  · refine (Notes.lift fun _ h => value_of_identifier h).bind fun name hname => ?_
    refine (Notes.useMessage (mention?_eq hn hname)).bind fun _ _ => ?_
    exact (Notes.quiet _).bind fun _ _ => Notes.pure trivial

theorem notes_examples (expected : Option MessageKind) (es : List (Example τ)) :
    Notes m (es.mapM (exampleCall m expected)) (fun _ => True) [] es :=
  (Notes.mapM_examples es fun e => notes_exampleCall expected e).congr rfl (by simp)

/-- What is given is a step of the chain just if there is something. -/
theorem notes_givenSteps (es : List (Example τ)) :
    Notes m (givenSteps m es) (fun steps => steps.isEmpty = es.isEmpty)
      (if es.isEmpty then [] else ["given"]) es := by
  cases es with
  | nil => exact Notes.pure rfl
  | cons e es =>
    refine Notes.congr ((notes_examples none (e :: es)).bind fun items _ => ?_) rfl
      (List.append_nil _)
    exact (Notes.useFunction "given").bind fun _ _ => Notes.pure rfl

/-- What sets a block off is a step of the chain just if the slice is no query. -/
theorem notes_whenSteps (kind : SliceKind) (w : When τ) :
    Notes m (whenSteps m kind w) (fun steps => steps.isEmpty = decide (kind = .query))
      (if kind = .query then [] else ["when"]) w.examples := by
  cases kind <;> cases w
  case command.one e =>
    exact (notes_exampleCall (some .command) e).bind fun call _ =>
      (Notes.useFunction "when").bind fun _ _ => Notes.pure rfl
  case react.many es =>
    refine Notes.congr ((notes_examples (some .event) es).bind fun items _ => ?_) rfl
      (List.append_nil _)
    exact (Notes.useFunction "when").bind fun _ _ => Notes.pure rfl
  case query.nothing => exact Notes.pure rfl
  all_goals exact Notes.throw _

theorem notes_outcomeText (kind : SliceKind) (o : Outcome τ) :
    Notes m (outcomeText m kind o) (fun _ => True) [] o.example?.toList := by
  cases o with
  | message e => exact notes_exampleCall none e
  | error type message =>
    rw [outcomeText]
    split
    · exact Notes.quiet _
    · exact Notes.throw _

/-- A chain that would be empty begins with a call of its own. -/
theorem notes_specChain (kind : SliceKind) (b : Spec τ) :
    Notes m (specChain m kind b) (fun _ => True) ((if b.given.isEmpty then [] else ["given"]) ++
      ((if kind = .query then [] else ["when"]) ++
        if b.given.isEmpty ∧ kind = .query then ["given"] else [])) b.examples := by
  have houtcomes : Notes m (b.outcomes.mapM (outcomeText m kind)) (fun _ => True) []
      (b.outcomes.filterMap Outcome.example?) :=
    (Notes.mapM_examples b.outcomes fun o => notes_outcomeText kind o).congr rfl
      (List.filterMap_eq_flatMap_toList _ _).symm
  refine Notes.congr ((notes_givenSteps b.given).bind fun given hgiven => ?_) rfl
    (List.append_assoc _ _ _).symm
  refine (notes_whenSteps kind b.when).bind fun trigger htrigger => ?_
  have hempty : (given ++ trigger).isEmpty = true ↔ b.given.isEmpty ∧ kind = .query := by
    have hboth : (given ++ trigger).isEmpty = (given.isEmpty && trigger.isEmpty) := by
      cases given <;> rfl
    rw [hboth, hgiven, htrigger]
    simp
  have hend : ∀ steps, Notes m (specEnd m kind b steps) (fun _ => True) []
      (b.outcomes.filterMap Outcome.example?) := fun steps =>
    houtcomes.andThen fun _ _ => Notes.pure trivial
  by_cases hnone : b.given.isEmpty ∧ kind = .query
  · rw [if_pos hnone, if_pos (hempty.2 hnone)]
    exact (Notes.useFunction "given").bind fun _ _ => hend _
  · rw [if_neg hnone, if_neg (mt hempty.1 hnone)]
    exact hend _

theorem notes_specLines (kind : SliceKind) (indent : String) (b : Spec τ) :
    Notes m (specLines m kind indent b) (fun _ => True) (b.calls kind) b.examples :=
  ((Notes.useFunction "specs").bind fun _ _ => (notes_specChain kind b).bind fun _ _ =>
    Notes.pure trivial).congr (by simp [Spec.calls]) (by simp)

/-! ## Entries, slices and flows -/

theorem notes_entryChain (e : Entry τ) :
    Notes m (entryChain m e) (fun _ => True) e.calls [] := by
  fun_induction entryChain m e with
  | case1 target origin instructions =>
    refine (Notes.useFunction "source").bind fun _ _ => (Notes.quiet _).bind fun _ _ => ?_
    exact (Notes.quiet _).bind fun _ _ => (Notes.quiet _).bind fun _ _ => Notes.pure trivial
  | case2 target destination instructions =>
    refine (Notes.useFunction "sink").bind fun _ _ => (Notes.quiet _).bind fun _ _ => ?_
    exact (Notes.quiet _).bind fun _ _ => (Notes.quiet _).bind fun _ _ => Notes.pure trivial
  | case3 target destination state instructions ih =>
    refine (Notes.useFunction "sink").bind fun _ _ => (Notes.quiet _).bind fun _ _ => ?_
    refine (Notes.quiet _).bind fun _ _ => ?_
    exact ih.andThen fun _ _ => (Notes.quiet _).bind fun _ _ => Notes.pure trivial

theorem notes_clientLines (client : Option (Client τ)) :
    Notes m (clientLines indent client) (fun _ => True)
      (client.toList.flatMap Client.calls) [] := by
  cases client with
  | none => exact Notes.pure trivial
  | some client =>
    have hshoulds : Notes m (client.specs.mapM fun text => do
        useFunction "should"
        return indent ++ "    should(" ++ (← (quoted text : Except Fault String)) ++ ");" :
          Emit (List String)) (fun _ => True) (client.specs.flatMap fun _ => ["should"]) [] :=
      Notes.mapM_functions client.specs fun text => (Notes.useFunction "should").bind fun _ _ =>
        (Notes.quiet _).bind fun _ _ => Notes.pure trivial
    refine Notes.congr ((Notes.useFunction "specs").bind fun _ _ => hshoulds.andThen fun _ _ => ?_)
      (List.append_nil _).symm rfl
    exact (Notes.quiet _).bind fun _ _ => Notes.pure trivial

theorem notes_requestLines (request : Option τ) :
    Notes m (requestLines indent request) (fun _ => True)
      (if request.isSome then ["gql"] else []) [] := by
  cases request with
  | none => exact Notes.pure trivial
  | some request =>
    exact (Notes.useFunction "gql").bind fun _ _ =>
      (Notes.quiet _).bind fun _ _ => Notes.pure trivial

theorem notes_dataLines (entries : List (Entry τ)) :
    Notes m (dataLines m indent entries) (fun _ => True)
      ("data" :: entries.flatMap Entry.calls) [] := by
  refine (Notes.useFunction "data").bind fun _ _ => ?_
  refine (Notes.mapM_functions entries fun e => ?_).andThen fun _ _ => Notes.pure trivial
  exact (notes_entryChain e).andThen fun _ _ => Notes.pure trivial

/-- A server that says nothing notes nothing. -/
theorem notes_serverLines (kind : SliceKind) (indent : String) (s : Server τ) :
    Notes m (serverLines m kind indent s) (fun _ => True) (s.calls kind)
      (s.specs.flatMap Spec.examples) := by
  unfold serverLines
  by_cases hbare : isBare s = true
  · rw [if_pos hbare]
    simp only [isBare, Bool.and_eq_true, List.isEmpty_iff] at hbare
    simp only [Server.calls, hbare.1.2, hbare.2]
    exact Notes.pure trivial
  · rw [if_neg hbare]
    have hrest : ∀ data, Notes m (serverEnd m kind indent s data) (fun _ => True)
        (s.specs.flatMap (Spec.calls kind)) (s.specs.flatMap Spec.examples) := by
      intro data
      refine (Notes.mapM s.specs fun b => notes_specLines kind _ b).andThen fun specs _ => ?_
      exact (Notes.quiet _).bind fun _ _ => Notes.pure trivial
    unfold Server.calls
    by_cases hdata : s.data.isEmpty = true
    · rw [if_pos hdata]
      simp only [if_pos hdata]
      exact (Notes.pure (P := fun _ => True) trivial).bind fun data _ => hrest data
    · rw [if_neg hdata]
      simp only [if_neg hdata]
      exact (notes_dataLines _ s.data).bind fun data _ => hrest data

theorem notes_sliceLines (s : Slice τ) :
    Notes m (sliceLines m indent s) (fun _ => True) s.calls
      (s.server.specs.flatMap Spec.examples) := by
  refine (Notes.useFunction s.kind.word).bind fun _ _ => (Notes.quiet _).bind fun _ _ => ?_
  refine (Notes.quiet _).bind fun _ _ => (notes_clientLines _ s.client).bind fun _ _ => ?_
  refine (notes_requestLines _ s.request).bind fun _ _ => ?_
  exact (notes_serverLines s.kind _ s.server).andThen fun _ _ => Notes.pure trivial

theorem notes_flowLines (f : Flow τ) :
    Notes m (flowLines m f) (fun _ => True) f.calls
      (f.slices.flatMap fun s => s.server.specs.flatMap Spec.examples) := by
  refine (Notes.useFunction "flow").bind fun _ _ => (Notes.quiet _).bind fun _ _ => ?_
  refine (Notes.quiet _).bind fun _ _ => ?_
  exact (Notes.mapM f.slices fun s => notes_sliceLines "  " s).andThen fun _ _ =>
    Notes.pure trivial

/-- The functions that the flows call, and the examples that they build. -/
theorem notes_flows : Notes m (m.flows.mapM (flowLines m)) (fun _ => True)
    (m.flows.flatMap Flow.calls) m.examples :=
  (Notes.mapM m.flows fun f => notes_flowLines f).congr rfl
    (by simp [Model.examples, Model.slices, List.flatMap_assoc])

/-! ## What is noted is what is used -/

/-- Where the types of the integrations are known, states are looked up from sources. -/
theorem looksUpSources_of_foreignTypes {types : List String} (h : foreignTypes m = .ok types) :
    ∀ s ∈ m.slices, s.server.LooksUpSources := by
  intro s hs e he state hstate
  obtain ⟨all, hall, -⟩ := bind_eq_ok.1 h
  have hall : m.integrationTypes = .ok all := by
    cases htypes : m.integrationTypes <;> rw [htypes] at hall <;> cases hall
    rfl
  obtain ⟨tss, htss, -⟩ := bind_eq_ok.1 hall
  obtain ⟨ts, hts⟩ := ok_of_mem_mapM htss hs
  obtain ⟨uss, huss, -⟩ := bind_eq_ok.1 hts
  obtain ⟨us, hus⟩ := ok_of_mem_mapM huss he
  cases e with
  | source => cases hstate
  | sink target destination looked instructions =>
    obtain rfl : looked = some state := hstate
    obtain ⟨_, -, hus⟩ := bind_eq_ok.1 hus
    obtain ⟨_, hlookup, -⟩ := bind_eq_ok.1 hus
    cases state with
    | source => rfl
    | sink => cases hlookup

theorem hasMessages_after (fs : List String) (ms : List (MessageKind × String)) :
    (Usage.after {} fs ms).hasMessages = !ms.isEmpty := by
  cases ms with
  | nil => rfl
  | cons n ms =>
    obtain ⟨kind, name⟩ := n
    have hmem : name ∈ (named kind ((kind, name) :: ms)).foldl mention [] :=
      (mem_foldl_mention _ _ _).2 (Or.inr (by simp [named]))
    have hne := List.ne_nil_of_mem hmem
    cases kind <;> simp [Usage.hasMessages, Usage.after, hne]

theorem filterMap_of_forall₂ {f : α → Option γ} {as : List α} {bs : List γ}
    (h : List.Forall₂ (fun a b => f a = some b) as bs) : as.filterMap f = bs := by
  induction h with
  | nil => rfl
  | cons hab _ ih => rw [List.filterMap_cons_some hab, ih]

/-- An example refers to a text, which is listed under its kind. -/
theorem mem_refs {e : Example τ} (he : e ∈ m.examples) {n : MessageKind × String}
    (hn : m.mention? e = some n) : Leaf.value e.ref = .text n.2 ∧ n.2 ∈ m.refs n.1 := by
  constructor
  · unfold Model.mention? at hn
    split at hn
    · next name _ htext =>
      cases hn
      cases hv : Leaf.value e.ref <;> rw [hv] at htext <;> cases htext
      rfl
    · cases hn
  · have hmem : n ∈ m.examples.filterMap m.mention? := List.mem_filterMap.2 ⟨e, he, hn⟩
    rw [Model.refs, List.mem_eraseDups, named, List.mem_map]
    exact ⟨n, List.mem_filter.2 ⟨hmem, decide_eq_true rfl⟩, rfl⟩

/-- What the flows have noted: the functions that they call and the messages that the examples
refer to. -/
theorem usage_of_flows {flows : List (List String)} {usage : Usage}
    (hrun : (m.flows.mapM (flowLines m)).run {} = (.ok flows, usage)) :
    (∀ e ∈ m.examples, ∃ n, m.mention? e = some n) ∧
      usage = Usage.after {} (m.flows.flatMap Flow.calls) (m.examples.filterMap m.mention?) := by
  obtain ⟨-, ms, hms, rfl⟩ := notes_flows {} flows usage hrun
  refine ⟨fun e he => ?_, by rw [filterMap_of_forall₂ hms]⟩
  obtain ⟨i, hi, rfl⟩ := List.getElem_of_mem he
  exact ⟨_, hms.get hi (hms.length_eq ▸ hi)⟩

/-- They use the functions that the model uses, and build the messages that it refers to. -/
theorem buildersFor_uses {flows : List (List String)} {usage : Usage}
    (hrun : (m.flows.mapM (flowLines m)).run {} = (.ok flows, usage))
    (h : ∀ s ∈ m.slices, s.server.LooksUpSources) :
    (∀ name, name ∈ (buildersFor usage).1.functions ↔ m.uses name = true) ∧
      (buildersFor usage).2 = if m.examples.isEmpty then [] else
        builderLines (m.refs .event) (m.refs .command) (m.refs .state) := by
  obtain ⟨hmentions, rfl⟩ := usage_of_flows hrun
  have hempty : (m.examples.filterMap m.mention?).isEmpty = m.examples.isEmpty := by
    rw [Bool.eq_iff_iff, List.isEmpty_iff, List.isEmpty_iff, List.filterMap_eq_nil_iff,
      List.eq_nil_iff_forall_not_mem]
    refine forall₂_congr fun e he => ?_
    obtain ⟨n, hn⟩ := hmentions e he
    simp [hn]
  have hrefs : ∀ kind, m.refs kind =
      (named kind (m.examples.filterMap m.mention?)).foldl mention [] := fun kind =>
    (foldl_mention _).symm
  have hcalls : ∀ name, name ∈ (Usage.after {} (m.flows.flatMap Flow.calls)
      (m.examples.filterMap m.mention?)).functions ↔
        (name = "flow" ∧ m.flows ≠ []) ∨ ∃ s ∈ m.slices, s.uses name = true := by
    intro name
    rw [← Model.mem_calls h name]
    exact (mem_foldl_mention _ _ _).trans (by simp)
  unfold buildersFor
  rw [hasMessages_after, hempty]
  cases hexamples : m.examples.isEmpty with
  | true =>
    refine ⟨fun name => ?_, rfl⟩
    rw [Model.uses_iff]
    refine (hcalls name).trans ?_
    simp [List.isEmpty_iff.1 hexamples]
  | false =>
    refine ⟨fun name => ?_, by rw [hrefs, hrefs, hrefs]; rfl⟩
    have hne : m.examples ≠ [] := by simpa using hexamples
    rw [Model.uses_iff]
    refine (mem_mention _ _ _).trans ?_
    rw [hcalls name, or_assoc]
    simp [hne, or_comm]

/-! ## The source text -/

variable [Leaf β] [Leaf ν]

/-- The sections of a source text. -/
theorem sections_of_generate {config : Config} {text : String} (h : generate config m = .ok text) :
    ∃ flows usage types foreign imports, checkModel m = .ok () ∧
      (m.flows.mapM (flowLines m)).run {} = (.ok flows, usage) ∧
      m.messages.mapM messageLines = .ok types ∧ foreignTypes m = .ok foreign ∧
      importLines config (buildersFor usage).1.functions (m.messages.map (·.kind)) m.integrations
        foreign = .ok imports ∧
      text = joinSections ([imports] ++ types ++ [(buildersFor usage).2] ++ flows) := by
  obtain ⟨⟨⟩, hcheck, h⟩ := bind_eq_ok.1 h
  cases hrun : (m.flows.mapM (flowLines m)).run {} with
  | mk result usage =>
    rw [hrun] at h
    obtain ⟨flows, hflows, h⟩ := bind_eq_ok.1 h
    obtain ⟨types, htypes, h⟩ := bind_eq_ok.1 h
    obtain ⟨foreign, hforeign, h⟩ := bind_eq_ok.1 h
    obtain ⟨imports, himports, h⟩ := bind_eq_ok.1 h
    exact ⟨flows, usage, types, foreign, imports, hcheck, by rw [hflows], htypes, hforeign,
      himports, (Except.ok.inj h).symm⟩

theorem importLine?_congr {keyword module : String} {xs ys : List String}
    (h : ∀ x, x ∈ xs ↔ x ∈ ys) : importLine? keyword xs module = importLine? keyword ys module := by
  unfold importLine?
  rw [ascendingSet_congr h]

/-- What the imports are made of. -/
theorem importLines_eq {config : Config} {functions types imports : List String}
    {kinds : List MessageKind} {is : List (Integration τ)}
    (h : importLines config functions kinds is types = .ok imports) :
    ∃ modules, integrationLines is = .ok modules ∧
      imports = (importLine? "import" functions config.flowImport).toList ++
        (importLine? "import type" (kinds.map (·.typeName)) config.flowImport).toList ++
        modules ++ (importLine? "import type" types config.integrationImport).toList := by
  unfold importLines at h
  split at h
  · obtain ⟨modules, hmodules, h⟩ := bind_eq_ok.1 h
    exact ⟨modules, hmodules, (Except.ok.inj h).symm⟩
  · cases h

/-- **The imports and the builders list what the flows use.** A source text begins with an import of
the functions that the model uses, all of them functions of the language. The builders stand after
the messages if there are any examples, and list the messages that these refer to, kind by kind and
each once, in order of first occurrence. -/
theorem generate_lists_uses (config : Config) (m : Model τ β ν) (text : String)
    (h : generate config m = .ok text) :
    (∃ flows types foreign modules, ((m.flows.mapM (flowLines m)).run {}).1 = .ok flows ∧
      m.messages.mapM messageLines = .ok types ∧ foreignTypes m = .ok foreign ∧
      integrationLines m.integrations = .ok modules ∧
      text = joinSections (
        [(importLine? "import" (dslFunctions.filter m.uses) config.flowImport).toList ++
          (importLine? "import type" (m.messages.map (·.kind.typeName)) config.flowImport).toList ++
          modules ++ (importLine? "import type" foreign config.integrationImport).toList] ++
        types ++
        [if m.examples.isEmpty then [] else
          builderLines (m.refs .event) (m.refs .command) (m.refs .state)] ++
        flows)) ∧
    (∀ name, m.uses name = true → name ∈ dslFunctions) ∧
    ∀ e ∈ m.examples, ∃ kind name, Leaf.value e.ref = .text name ∧ name ∈ m.refs kind := by
  obtain ⟨flows, usage, types, foreign, imports, -, hrun, htypes, hforeign, himports, rfl⟩ :=
    sections_of_generate h
  obtain ⟨hfunctions, hbuilders⟩ := buildersFor_uses hrun (looksUpSources_of_foreignTypes hforeign)
  obtain ⟨modules, hmodules, rfl⟩ := importLines_eq himports
  refine ⟨⟨flows, types, foreign, modules, by rw [hrun], htypes, hforeign, hmodules, ?_⟩,
    fun name => m.mem_of_uses, fun e he => ?_⟩
  · have hlisted : ∀ name, name ∈ (buildersFor usage).1.functions ↔
        name ∈ dslFunctions.filter m.uses := by
      intro name
      rw [hfunctions, List.mem_filter]
      exact ⟨fun huses => ⟨m.mem_of_uses huses, huses⟩, And.right⟩
    rw [hbuilders, importLine?_congr hlisted, List.map_map]
    rfl
  · obtain ⟨n, hn⟩ := (usage_of_flows hrun).1 e he
    exact ⟨n.1, n.2, mem_refs he hn⟩

/-- The stock is looked up while it is written; nothing is given, and two blocks say the same. -/
def stocktaking : Model :=
  { flows := [{ name := "Stock", slices := [{
      kind := .query
      name := "Take stock"
      server := {
        description := ""
        specs := [{ outcomes := [.message ⟨"Stock", .object []⟩] },
          { outcomes := [.message ⟨"Stock", .null⟩] }]
        data := [.sink ⟨.state, "Stock"⟩ (.database "stock")
          (some (.source ⟨.state, "Stock"⟩ (.readModel "stock") none)) none] } }] }]
    messages := [{ name := "Stock", kind := .state, version := 1 }] }

theorem generate_lists_uses_stocktaking :
    ∃ text flows types, generate {} stocktaking = .ok text ∧
      text = joinSections (
        [(importLine? "import" ["query", "specs", "source", "data", "sink", "flow", "given",
            "createBuilders"] "@auto-engineer/flow").toList ++
          (importLine? "import type" ["State"] "@auto-engineer/flow").toList] ++
        types ++ [builderLines [] [] ["Stock"]] ++ flows) := by
  have hok : (generate {} stocktaking).toBool = true := by decide +kernel
  cases htext : generate {} stocktaking with
  | error fault =>
    rw [htext] at hok
    cases hok
  | ok text =>
    obtain ⟨⟨flows, types, foreign, modules, -, -, hforeign, hmodules, heq⟩, -⟩ :=
      generate_lists_uses {} stocktaking text htext
    have huses : dslFunctions.filter stocktaking.uses = ["query", "specs", "source", "data", "sink",
      "flow", "given", "createBuilders"] := by decide
    have hrefs : [MessageKind.event, .command, .state].map stocktaking.refs =
      [[], [], ["Stock"]] := by decide
    have hnone : foreignTypes stocktaking = .ok [] := by decide +kernel
    have hbare : integrationLines stocktaking.integrations = .ok [] := by decide +kernel
    have hno : importLine? "import type" [] "../server/src/integrations" = none := by decide +kernel
    obtain rfl : foreign = [] := Except.ok.inj (hforeign.symm.trans hnone)
    obtain rfl : modules = [] := Except.ok.inj (hmodules.symm.trans hbare)
    simp only [List.map_cons, List.map_nil, List.cons.injEq, and_true] at hrefs
    obtain ⟨hevents, hcommands, hstates⟩ := hrefs
    rw [huses, hevents, hcommands, hstates, hno, List.append_nil] at heq
    rw [Option.toList_none, List.append_nil] at heq
    exact ⟨text, flows, types, rfl, heq⟩

end Emission

end EventFlow
