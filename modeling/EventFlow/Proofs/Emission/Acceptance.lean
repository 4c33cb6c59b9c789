import EventFlow.Emission.Source
import EventFlow.Proofs.Emission.Verdict
import EventFlow.Proofs.Json.Exact
import EventFlow.Proofs.Model.Report

/-! Which models have a source text.

The report on a model and the checks made while it is rendered are written apart from each other.
They agree: a model whose values are of the right types is rendered exactly if the report finds
nothing amiss in its names and blocks, and what the report does not look at can be written,

    (∃ text, generate config m = ok text) ↔ m.IsRenderable        if m.IsTyped,

and every other such model is refused. -/

namespace EventFlow

variable (indent : String)

/-! ## Models that can be rendered -/

namespace Json

def isFiniteNode : Json → Bool
  | .number (.double d) => d.isFinite
  | _ => true

/-- No number in the value is infinite or undefined. -/
def isFinite (v : Json) : Bool := everywhere isFiniteNode v

end Json

namespace Entry

/-- The queries of an entry, those of a state that it looks up included. -/
def queries : Entry → List Json
  | .source _ (.database _ query) _ => [query]
  | .source .. => []
  | .sink _ _ none _ => []
  | .sink _ _ (some state) _ => state.queries

/-- A state is looked up from a source. -/
def LooksUpSource : Entry → Prop
  | .sink _ _ (some state) _ => state.isSource = true
  | _ => True

end Entry

namespace Model

/-- All entries, slice by slice. -/
def entries (m : Model) : List Entry := m.slices.flatMap (·.server.data)

/-- The values of a model are of the types that they are declared with, and integers are not too
long to be written. -/
structure IsTyped (m : Model) : Prop where
  states : ∀ e ∈ m.entries, e.LooksUpSource
  examples : ∀ e ∈ m.examples, e.data.isWritable = true
  queries : ∀ e ∈ m.entries, ∀ q ∈ e.queries, q.isWritable = true
  versions : ∀ n ∈ m.messages, (Json.int n.version).isWritable = true
  defaults : ∀ n ∈ m.messages, ∀ f ∈ n.fields, f.default.isWritable = true

/-- The report has nothing to say against a model, and its names and numbers can be written. -/
structure IsRenderable (m : Model) : Prop where
  report : ∃ r, m.report? = some r ∧ r.duplicateMessages = [] ∧ r.undefinedReferences = [] ∧
    r.undefinedIntegrations = [] ∧ r.shapeMismatches = []
  integrationNames : (m.integrations.map (·.name)).Nodup
  messageNames : ∀ n ∈ m.messages, Emission.isIdentifier n.name = true
  systems : ∀ e ∈ m.entries, e.Linked fun name => Emission.isIdentifier name = true
  errors : ∀ s ∈ m.slices, ∀ b ∈ s.server.specs, ∀ type message,
    Outcome.error type message ∈ b.outcomes → s.kind = .command
  examples : ∀ e ∈ m.examples, e.data.isFinite = true
  queries : ∀ e ∈ m.entries, ∀ q ∈ e.queries, q.isFinite = true

end Model

namespace Emission

/-! ## Literals -/

/-- A number is refused if it is not finite. -/
theorem verdict_number (n : Number) (h : n.isLong = false) :
    Verdict (numberLiteral n) (Json.isFinite (.number n) = true) := by
  cases n with
  | int i =>
    rw [numberLiteral, h]
    exact (Verdict.of_ok ⟨_, rfl⟩).congr
      (by simp [Json.isFinite, Json.everywhere, Json.isFiniteNode])
  | double d =>
    rw [numberLiteral, Json.isFinite, Json.everywhere, Json.isFiniteNode]
    · cases hd : d.isFinite with
      | true => exact (Verdict.of_ok ⟨_, rfl⟩).congr (by simp)
      | false => exact (Verdict.throw rfl).congr (by simp)
    all_goals simp

mutual

/-- A value is refused if one of its numbers is. -/
theorem verdict_literal (v : Json) (h : v.isWritable = true) :
    Verdict (literal v) (v.isFinite = true) := by
  match v with
  | .null | .bool _ | .text _ =>
    rw [literal]
    exact (Verdict.of_ok ⟨_, rfl⟩).congr
      (by simp [Json.isFinite, Json.everywhere, Json.isFiniteNode])
  | .number n =>
    rw [literal]
    exact verdict_number n (by simpa [Json.isWritable] using h)
  | .array items =>
    rw [literal]
    refine ((verdict_items items (by simpa [Json.isWritable] using h)).andThen
      fun ts => ⟨_, rfl⟩).congr ?_
    simp [Json.isFinite, Json.everywhere, Json.isFiniteNode]
  | .object [] =>
    rw [literal]
    exact (Verdict.of_ok ⟨_, rfl⟩).congr (by
      simp [Json.isFinite, Json.everywhere, Json.everywhereUnder, Json.isFiniteNode])
  | .object (m :: ms) =>
    rw [literal]
    · refine ((verdict_members (m :: ms) (by simpa [Json.isWritable] using h)).andThen
        fun ts => ⟨_, rfl⟩).congr ?_
      simp [Json.isFinite, Json.everywhere, Json.isFiniteNode]
    · simp

theorem verdict_items (vs : List Json) (h : Json.areWritable vs = true) :
    Verdict (literalItems vs) (Json.everywhereIn Json.isFiniteNode vs = true) := by
  match vs with
  | [] =>
    rw [literalItems]
    exact (Verdict.of_ok ⟨_, rfl⟩).congr (by simp [Json.everywhereIn])
  | v :: vs =>
    rw [Json.areWritable, Bool.and_eq_true] at h
    rw [literalItems, Json.everywhereIn, Bool.and_eq_true]
    exact (verdict_literal v h.1).bind fun t =>
      (verdict_items vs h.2).andThen fun ts => ⟨t :: ts, rfl⟩

theorem verdict_members (ms : Json.Members) (h : Json.membersWritable ms = true) :
    Verdict (literalMembers ms) (Json.everywhereUnder Json.isFiniteNode ms = true) := by
  match ms with
  | [] =>
    rw [literalMembers]
    exact (Verdict.of_ok ⟨_, rfl⟩).congr (by simp [Json.everywhereUnder])
  | (key, v) :: ms =>
    rw [Json.membersWritable, Bool.and_eq_true] at h
    rw [literalMembers, Json.everywhereUnder, Bool.and_eq_true]
    exact (verdict_literal v h.1).bind fun t =>
      (verdict_members ms h.2).andThen fun ts => ⟨_, rfl⟩

end

/-! ## Names and texts -/

theorem verdict_identifier {fault : String → Fault} (hfault : ∀ s, (fault s).isRefusal = true)
    (s : String) : Verdict (identifier fault s) (isIdentifier s = true) := by
  show Verdict (if isIdentifier s = true then _ else _) _
  cases isIdentifier s with
  | true => exact (Verdict.pure s).congr (by simp)
  | false => exact (Verdict.throw (hfault s)).congr (by simp)

theorem quotedOption_text (o : Option String) : ∃ ts, quotedOption o = .ok ts := by
  cases o with
  | none => exact ⟨[], rfl⟩
  | some s => exact ⟨[quote s], by simp [quotedOption]⟩

theorem nameArguments_text (name : String) (id : Option String) :
    ∃ t, nameArguments name id = .ok t := by
  obtain ⟨ts, hts⟩ := quotedOption_text id
  exact ⟨_, by rw [nameArguments, quoted_text, hts]; rfl⟩

theorem commentLines_text (description : Option String) (tags : List Tag) (indent : String) :
    ∃ ls, commentLines description tags indent = .ok ls := by
  cases description <;> exact ⟨_, rfl⟩

theorem errorLiteral_text (type : ErrorType) (message : Option String) :
    ∃ t, errorLiteral type message = .ok t := by
  obtain ⟨ts, hts⟩ := quotedOption_text message
  exact ⟨_, by rw [errorLiteral, hts]; rfl⟩

/-! ## Blocks -/

variable {m : Model}

/-- The example can be built where a message of the expected kind is wanted. -/
def IsBuildable (m : Model) (expected : Option MessageKind) (e : Example) : Prop :=
  ∃ n, m.message? e.ref = some n ∧ (∀ wanted ∈ expected, n.kind = wanted) ∧
    isIdentifier n.name = true ∧ e.data.isFinite = true

/-- An example is refused for its reference, its kind, its name or its data. -/
theorem accepts_exampleCall (expected : Option MessageKind) (e : Example)
    (h : e.data.isWritable = true) :
    Accepts (exampleCall m expected e) (IsBuildable m expected e) := by
  rcases exampleCall_cases m e expected with
    ⟨hn, hx⟩ | ⟨n, hn, ⟨wanted, hw, hne, hx⟩ | ⟨hkind, hx⟩⟩ <;> rw [hx]
  · exact (Accepts.throw rfl).congr (by simp [IsBuildable, hn])
  · refine (Accepts.throw rfl).congr ⟨False.elim, ?_⟩
    rintro ⟨n', hn', hkind, -⟩
    cases hn.symm.trans hn'
    exact hne (hkind wanted hw)
  · have hcall : Accepts (builderCall n e)
        (isIdentifier n.name = true ∧ e.data.isFinite = true) := by
      refine (Accepts.lift (verdict_identifier (fun _ => rfl) n.name)).bind fun name => ?_
      refine (Accepts.useMessage n.kind name).after fun _ => ?_
      exact (Accepts.lift (verdict_literal e.data h)).andThen fun t => Accepts.pure _
    refine hcall.congr ⟨fun h => ⟨n, hn, hkind, h⟩, ?_⟩
    rintro ⟨n', hn', -, h⟩
    cases hn.symm.trans hn'
    exact h

/-- What sets a block off can be built, and has the form that the slice asks for. -/
def IsTriggerable (m : Model) : SliceKind → When → Prop
  | .command, .one e => IsBuildable m (some .command) e
  | .react, .many es => ∀ e ∈ es, IsBuildable m (some .event) e
  | .query, .nothing => True
  | _, _ => False

theorem accepts_givenSteps (es : List Example) (h : ∀ e ∈ es, e.data.isWritable = true) :
    Accepts (givenSteps m es) (∀ e ∈ es, IsBuildable m none e) := by
  unfold givenSteps
  cases es with
  | nil => exact (Accepts.pure []).congr (by simp)
  | cons e es =>
    rw [if_neg (by simp)]
    refine (Accepts.mapM _ fun x hx => accepts_exampleCall none x (h x hx)).andThen fun ts => ?_
    exact (Accepts.useFunction (by decide)).after fun _ => Accepts.pure _

theorem accepts_whenSteps (kind : SliceKind) (w : When)
    (h : ∀ e ∈ w.examples, e.data.isWritable = true) :
    Accepts (whenSteps m kind w) (IsTriggerable m kind w) := by
  cases kind <;> cases w
  case command.one e =>
    refine (accepts_exampleCall (some .command) e (h e (by simp [When.examples]))).andThen
      fun t => ?_
    exact (Accepts.useFunction (by decide)).after fun _ => Accepts.pure _
  case react.many es =>
    refine (Accepts.mapM es fun x hx => accepts_exampleCall (some .event) x (h x hx)).andThen
      fun ts => ?_
    exact (Accepts.useFunction (by decide)).after fun _ => Accepts.pure _
  case query.nothing => exact Accepts.pure []
  all_goals exact Accepts.throw rfl

/-- Errors are expected of commands only. -/
def IsExpectable (m : Model) (kind : SliceKind) : Outcome → Prop
  | .message e => IsBuildable m none e
  | .error .. => kind = .command

theorem accepts_outcomeText (kind : SliceKind) (o : Outcome)
    (h : ∀ e ∈ o.example?, e.data.isWritable = true) :
    Accepts (outcomeText m kind o) (IsExpectable m kind o) := by
  cases o with
  | message e => exact accepts_exampleCall none e (h e rfl)
  | error type message =>
    rw [outcomeText, IsExpectable]
    by_cases hkind : kind = .command
    · rw [if_pos hkind]
      exact (Accepts.lift (Verdict.of_ok (errorLiteral_text type message))).congr (by simp [hkind])
    · rw [if_neg hkind]
      exact (Accepts.throw rfl).congr (by simp [hkind])

/-- The steps of a block can be written. -/
structure IsChainable (m : Model) (kind : SliceKind) (b : Spec) : Prop where
  given : ∀ e ∈ b.given, IsBuildable m none e
  trigger : IsTriggerable m kind b.when
  outcomes : ∀ o ∈ b.outcomes, IsExpectable m kind o

/-- A block is refused if one of its steps is. -/
theorem accepts_specLines (kind : SliceKind) (indent : String) (b : Spec)
    (h : ∀ e ∈ b.examples, e.data.isWritable = true) :
    Accepts (specLines m kind indent b) (IsChainable m kind b) := by
  have hgiven := accepts_givenSteps (m := m) b.given fun e he => h e (by simp [Spec.examples, he])
  have htrigger := accepts_whenSteps (m := m) kind b.when fun e he =>
    h e (by simp [Spec.examples, he])
  have houtcomes : Accepts (b.outcomes.mapM (outcomeText m kind)) _ :=
    Accepts.mapM b.outcomes fun o ho => accepts_outcomeText kind o fun e he =>
      h e (by
        simp only [Spec.examples, List.mem_append, List.mem_filterMap]
        exact Or.inr ⟨o, ho, he⟩)
  have hchain : Accepts (specChain m kind b) (IsChainable m kind b) := by
    unfold specChain
    refine (hgiven.bind fun given => htrigger.bind fun trigger => ?_).congr
      ⟨fun ⟨hg, ht, ho⟩ => ⟨hg, ht, ho⟩, fun ⟨hg, ht, ho⟩ => ⟨hg, ht, ho⟩⟩
    have hrest : ∀ steps, Accepts (specEnd m kind b steps)
        (∀ o ∈ b.outcomes, IsExpectable m kind o) :=
      fun steps => houtcomes.andThen fun ts => Accepts.pure _
    dsimp only
    split
    · exact (Accepts.useFunction (by decide)).after fun _ => (Accepts.pure _).after hrest
    · exact (Accepts.pure _).after hrest
  unfold specLines
  exact (Accepts.useFunction (by decide)).after fun _ => hchain.andThen fun t => Accepts.pure _

/-! ## Pipelines -/

/-- An integration can be named in code. -/
def IsNameable (m : Model) (name : String) : Prop :=
  m.HasIntegration name ∧ isIdentifier name = true

theorem integration?_isNone (name : String) :
    (m.integration? name).isNone = true ↔ ¬m.HasIntegration name := by
  simp [Model.integration?, Model.HasIntegration, Leaf.isMatch, Json.isMatch, Json.same_text,
    Json.isNaN]

/-- An integration without systems is refused, and one whose systems cannot be named. -/
theorem verdict_systemNames (systems : List String) :
    Verdict (systemNames m systems) (Systems.Linked (IsNameable m) systems) := by
  unfold systemNames Systems.Linked
  cases systems with
  | nil => exact (Verdict.throw rfl).congr (by simp)
  | cons name names =>
    rw [if_neg (by simp)]
    refine (Verdict.mapM (P := IsNameable m) (name :: names) fun x _ => ?_).congr (by simp)
    by_cases hx : m.HasIntegration x
    · rw [if_neg (by rw [integration?_isNone]; exact not_not_intro hx)]
      exact (verdict_identifier (fun _ => rfl) x).congr (by simp [IsNameable, hx])
    · rw [if_pos ((integration?_isNone x).2 hx)]
      exact (Verdict.throw rfl).congr (by simp [IsNameable, hx])

theorem verdict_destinationCall (d : Destination) :
    Verdict (destinationCall m d) (d.Linked (IsNameable m)) := by
  cases d with
  | integration systems message =>
    refine (verdict_systemNames systems).andThen fun names => ?_
    cases message with
    | none => exact ⟨_, rfl⟩
    | some message => exact ⟨_, by rw [messageArguments, quoted_text, quoted_text]; rfl⟩
  | _ => exact Verdict.of_ok ⟨_, by rw [destinationCall, quoted_text]; rfl⟩

/-- A query is refused as any other value is. -/
theorem verdict_originCall (o : Origin)
    (h : ∀ name query, o = .database name query → query.isWritable = true) :
    Verdict (originCall m o) (o.Linked (IsNameable m) ∧
      ∀ name query, o = .database name query → query.isFinite = true) := by
  cases o with
  | integration systems =>
    exact ((verdict_systemNames systems).andThen fun names => ⟨_, rfl⟩).congr
      (by simp [Origin.Linked])
  | database name query =>
    have hquery : Verdict (queryArguments query) (query.isFinite = true) := by
      cases hq : query with
      | null =>
        exact (Verdict.of_ok ⟨_, rfl⟩).congr
          (by simp [Json.isFinite, Json.everywhere, Json.isFiniteNode])
      | _ =>
        rw [← hq, queryArguments]
        · exact (verdict_literal query (h name query rfl)).andThen fun t => ⟨_, rfl⟩
        · simp [hq]
    rw [originCall, quoted_text]
    exact (hquery.andThen fun ts => ⟨_, rfl⟩).congr (by simp [Origin.Linked])
  | api endpoint method =>
    obtain ⟨ts, hts⟩ := quotedOption_text method
    rw [originCall, quoted_text, hts]
    exact (Verdict.of_ok ⟨_, rfl⟩).congr (by simp [Origin.Linked])
  | _ =>
    simp only [originCall, quoted_text]
    exact (Verdict.of_ok ⟨_, rfl⟩).congr (by simp [Origin.Linked])

theorem instructionsCall_text (instructions : Option String) :
    ∃ t, instructionsCall instructions = .ok t := by
  obtain ⟨ts, hts⟩ := quotedOption_text instructions
  rw [instructionsCall, hts]
  cases ts <;> exact ⟨_, rfl⟩

theorem targetCall_text (root : String) (t : Target) : ∃ text, targetCall root t = .ok text := by
  simp [targetCall]

/-- An entry is refused for its ends and for those of the state that it looks up. -/
theorem accepts_entryChain (e : Entry) (h : ∀ q ∈ e.queries, q.isWritable = true) :
    Accepts (entryChain m e) (e.Linked (IsNameable m) ∧ ∀ q ∈ e.queries, q.isFinite = true) := by
  have hend : ∀ (instructions : Option String) (f : String → String), Accepts (do
      let more ← (instructionsCall instructions : Except Fault String)
      return f more : Emit String) True := fun instructions f =>
    (Accepts.lift (Verdict.of_ok (instructionsCall_text instructions))).andThen fun t =>
    Accepts.pure _
  fun_induction entryChain m e with
  | case1 target origin instructions =>
    refine (Accepts.useFunction (by decide)).after fun _ => ?_
    refine (Accepts.lift (Verdict.of_ok (targetCall_text _ _))).after fun start => ?_
    refine ((Accepts.lift (verdict_originCall origin ?_)).andThen fun call => hend _ _).congr ?_
    · rintro name query rfl
      exact h query (by simp [Entry.queries])
    · cases origin <;> simp [Entry.Linked, Entry.queries]
  | case2 target destination instructions =>
    refine (Accepts.useFunction (by decide)).after fun _ => ?_
    refine (Accepts.lift (Verdict.of_ok (targetCall_text _ _))).after fun start => ?_
    refine ((Accepts.lift (verdict_destinationCall destination)).andThen fun call =>
      hend _ _).congr ?_
    simp [Entry.Linked, Entry.queries]
  | case3 target destination state instructions ih =>
    refine (Accepts.useFunction (by decide)).after fun _ => ?_
    refine (Accepts.lift (Verdict.of_ok (targetCall_text _ _))).after fun start => ?_
    refine ((Accepts.lift (verdict_destinationCall destination)).bind fun call =>
      (ih h).andThen fun lookup => hend _ _).congr ?_
    simp [Entry.Linked, Entry.queries, and_assoc]

/-! ## Slices and flows -/

/-- The entry can be written. -/
def IsWired (m : Model) (e : Entry) : Prop :=
  e.Linked (IsNameable m) ∧ ∀ q ∈ e.queries, q.isFinite = true

theorem accepts_dataLines (entries : List Entry)
    (h : ∀ e ∈ entries, ∀ q ∈ e.queries, q.isWritable = true) :
    Accepts (dataLines m indent entries) (∀ e ∈ entries, IsWired m e) := by
  refine (Accepts.useFunction (by decide)).after fun _ => ?_
  refine (Accepts.mapM entries fun e he => ?_).andThen fun ts => Accepts.pure _
  exact (accepts_entryChain e (h e he)).andThen fun t => Accepts.pure _

/-- The blocks and the entries of a slice can be written. -/
structure IsServable (m : Model) (s : Slice) : Prop where
  specs : ∀ b ∈ s.server.specs, IsChainable m s.kind b
  data : ∀ e ∈ s.server.data, IsWired m e

theorem serverFooter_text (description : String) : ∃ t, serverFooter description = .ok t := by
  unfold serverFooter
  split
  · exact ⟨_, rfl⟩
  · rw [quoted_text]
    exact ⟨_, rfl⟩

/-- A server is refused for its blocks and its entries. -/
theorem accepts_serverLines (s : Slice)
    (hspecs : ∀ b ∈ s.server.specs, ∀ e ∈ b.examples, e.data.isWritable = true)
    (hdata : ∀ e ∈ s.server.data, ∀ q ∈ e.queries, q.isWritable = true) :
    Accepts (serverLines m s.kind indent s.server) (IsServable m s) := by
  unfold serverLines
  split
  · next hbare =>
    -- a server that says nothing has nothing that could be refused
    simp only [isBare, Bool.and_eq_true, List.isEmpty_iff] at hbare
    exact (Accepts.pure []).congr ⟨fun _ => ⟨by simp [hbare], by simp [hbare]⟩, fun _ => trivial⟩
  · have hrest : ∀ data, Accepts (serverEnd m s.kind indent s.server data)
        (∀ b ∈ s.server.specs, IsChainable m s.kind b) := fun data =>
      (Accepts.mapM s.server.specs fun b hb => accepts_specLines s.kind _ b (hspecs b hb)).andThen
        fun specs => (Accepts.lift (Verdict.of_ok (serverFooter_text _))).andThen fun _ =>
          Accepts.pure _
    dsimp only
    split
    · next hempty =>
      refine ((Accepts.pure _).after hrest).congr ⟨fun hs => ⟨hs, ?_⟩, fun h => h.specs⟩
      simp [List.isEmpty_iff.1 hempty]
    · exact ((accepts_dataLines _ s.server.data hdata).bind hrest).congr
        ⟨fun h => ⟨h.2, h.1⟩, fun h => ⟨h.data, h.specs⟩⟩

/-- Clients are never refused. -/
theorem accepts_clientLines (client : Option Client) :
    Accepts (clientLines indent client) True := by
  cases client with
  | none => exact Accepts.pure []
  | some client =>
    refine (Accepts.useFunction (by decide)).after fun _ => ?_
    refine (Accepts.mapM (P := fun _ => True) client.specs fun text _ => ?_).bind (Q := True)
      (fun ts => ?_) |>.congr (by simp)
    · refine (Accepts.useFunction (by decide)).after fun _ => ?_
      exact (Accepts.lift (Verdict.of_ok ⟨_, quoted_text text⟩)).andThen fun t => Accepts.pure _
    · exact (Accepts.lift (Verdict.of_ok ⟨_, quoted_text _⟩)).andThen fun t => Accepts.pure _

theorem accepts_requestLines (request : Option String) :
    Accepts (requestLines indent request) True := by
  cases request with
  | none => exact Accepts.pure []
  | some request =>
    refine (Accepts.useFunction (by decide)).after fun _ => ?_
    exact (Accepts.lift (Verdict.of_ok ⟨_, rfl⟩)).andThen fun t => Accepts.pure _

theorem streamLines_text (stream : Option String) :
    ∃ ls, streamLines indent stream = .ok ls := by
  obtain ⟨ts, hts⟩ := quotedOption_text stream
  exact ⟨_, by rw [streamLines, hts]; rfl⟩

/-- A slice is refused for its server alone. -/
theorem accepts_sliceLines (s : Slice)
    (hspecs : ∀ b ∈ s.server.specs, ∀ e ∈ b.examples, e.data.isWritable = true)
    (hdata : ∀ e ∈ s.server.data, ∀ q ∈ e.queries, q.isWritable = true) :
    Accepts (sliceLines m indent s) (IsServable m s) := by
  refine (Accepts.useFunction (by cases s.kind <;> decide)).after fun _ => ?_
  refine (Accepts.lift (Verdict.of_ok (nameArguments_text _ _))).after fun name => ?_
  refine (Accepts.lift (Verdict.of_ok (streamLines_text _ _))).after fun stream => ?_
  refine (accepts_clientLines _ _).after fun client => ?_
  refine (accepts_requestLines _ _).after fun request => ?_
  exact (accepts_serverLines _ s hspecs hdata).andThen fun server => Accepts.pure _

/-- A flow is refused for its slices alone. -/
theorem accepts_flowLines (f : Flow)
    (hspecs : ∀ s ∈ f.slices, ∀ b ∈ s.server.specs, ∀ e ∈ b.examples, e.data.isWritable = true)
    (hdata : ∀ s ∈ f.slices, ∀ e ∈ s.server.data, ∀ q ∈ e.queries, q.isWritable = true) :
    Accepts (flowLines m f) (∀ s ∈ f.slices, IsServable m s) := by
  refine (Accepts.useFunction (by decide)).after fun _ => ?_
  refine (Accepts.lift (Verdict.of_ok (commentLines_text _ _ _))).after fun comment => ?_
  refine (Accepts.lift (Verdict.of_ok (nameArguments_text _ _))).after fun name => ?_
  exact (Accepts.mapM f.slices fun s hs =>
    accepts_sliceLines _ s (hspecs s hs) (hdata s hs)).andThen fun slices => Accepts.pure _

/-! ## Messages and imports -/

theorem valueTags_writable (name : String) {v : Json} (h : v.isWritable = true) (text : String) :
    valueTags name v text = .ok [⟨name, text⟩] := if_pos h

theorem fieldLines_writable {f : Field} (h : f.default.isWritable = true) :
    ∃ ls, fieldLines f = .ok ls := by
  obtain ⟨tags, htags⟩ : ∃ tags, defaultTags f = .ok tags := by
    rw [defaultTags, valueTags_writable _ h]
    split <;> exact ⟨_, rfl⟩
  obtain ⟨ls, hls⟩ := commentLines_text f.description tags "  "
  rw [fieldLines, htags]
  show ∃ ls, (commentLines f.description tags "  " >>= _) = .ok ls
  rw [hls]
  exact ⟨_, rfl⟩

/-- A message is refused for its name alone. -/
theorem verdict_messageLines (n : Message) (hversion : (Json.int n.version).isWritable = true)
    (hdefaults : ∀ f ∈ n.fields, f.default.isWritable = true) :
    Verdict (messageLines n) (isIdentifier n.name = true) := by
  have hfields : Verdict (n.fields.mapM fieldLines) True :=
    (Verdict.mapM (P := fun _ => True) n.fields fun f hf =>
      Verdict.of_ok (fieldLines_writable (hdefaults f hf))).congr (by simp)
  obtain ⟨tags, htags⟩ : ∃ tags, versionTags n = .ok tags := by
    rw [versionTags]
    rw [Leaf.value_int, valueTags_writable _ hversion]
    split <;> exact ⟨_, rfl⟩
  obtain ⟨ls, hls⟩ := commentLines_text n.description tags ""
  refine (verdict_identifier (fun _ => rfl) n.name).andThen fun name => ?_
  rw [htags]
  show ∃ ls, (commentLines n.description tags "" >>= _) = .ok ls
  rw [hls]
  cases hempty : n.fields.isEmpty with
  | true => exact ⟨_, rfl⟩
  | false => exact (hfields.andThen fun fields => ⟨_, rfl⟩).accepted trivial

theorem listedNames_texts {names : List Json} (h : Json.AreTexts names) :
    ∃ ts, listedNames names = .ok ts := by
  obtain ⟨ts, hts⟩ := Option.isSome_iff_exists.1 h.texts?
  exact ⟨ts, by rw [listedNames, show names.mapM Json.text? = some ts from hts]⟩

/-- Names are refused if one is given twice. -/
theorem verdict_checkNames (fault : List String → Fault)
    (hfault : ∀ names, (fault names).isRefusal = true) (names : List String) :
    Verdict (checkNames fault (names.map .text)) names.Nodup := by
  have htexts : Json.AreTexts (Json.repeated (names.map .text)) :=
    ((Json.AreTexts.map id names).filter _).distinct
  rw [← Json.repeated_texts, checkNames]
  split
  · next hnil => exact (Verdict.of_ok ⟨_, rfl⟩).congr (by simp [hnil])
  · next twice hsome =>
    obtain ⟨ts, hts⟩ := listedNames_texts htexts
    rw [hts]
    exact (Verdict.throw (hfault _)).congr (by simpa using hsome)

/-! The types that a model exchanges with integrations are known if states are looked up from
sources. -/

theorem orderedNames_texts {names : List Json} (h : Json.AreTexts names) :
    ∃ ts, orderedNames names = .ok ts ∧ Json.AreTexts ts := by
  refine ⟨Json.ascendingSet names, by rw [orderedNames, if_pos h.distinct.sortable], ?_⟩
  intro v hv
  exact h.distinct v (List.mem_mergeSort.1 hv)

theorem mapM_texts {α : Type} {f : α → Except ExchangeFault (List Json)} (as : List α)
    (h : ∀ a ∈ as, ∃ ts, f a = .ok ts ∧ Json.AreTexts ts) :
    ∃ tss, as.mapM f = .ok tss ∧ Json.AreTexts tss.flatten := by
  induction as with
  | nil => exact ⟨[], rfl, by simp [Json.AreTexts]⟩
  | cons a as ih =>
    obtain ⟨ts, hts, htexts⟩ := h a List.mem_cons_self
    obtain ⟨tss, htss, hrest⟩ := ih fun b hb => h b (List.mem_cons_of_mem _ hb)
    exact ⟨ts :: tss, by rw [List.mapM_cons, hts, htss]; rfl, htexts.append hrest⟩

theorem integrationTypes_entry (e : Entry) (h : e.LooksUpSource) :
    ∃ ts, e.integrationTypes = .ok ts ∧ Json.AreTexts ts := by
  have hsent : ∀ d : Destination, ∃ ts, d.sentType = .ok ts ∧ Json.AreTexts ts := by
    intro d
    cases d with
    | integration systems message =>
      cases message with
      | none => exact ⟨[], rfl, by simp [Json.AreTexts]⟩
      | some message => exact ⟨[.text message.name], rfl, by simp [Json.AreTexts]⟩
    | _ => exact ⟨[], rfl, by simp [Json.AreTexts]⟩
  match e, h with
  | .source .., _ => exact ⟨[], rfl, by simp [Json.AreTexts]⟩
  | .sink _ destination none _, _ => exact hsent destination
  | .sink _ destination (some state) _, h =>
    obtain ⟨sent, hs, hsentTexts⟩ := hsent destination
    obtain ⟨found, hf, hfound⟩ : ∃ ts, state.lookupType = .ok ts ∧ Json.AreTexts ts := by
      cases state with
      | sink => cases h
      | source target origin instructions =>
        cases origin with
        | integration systems => exact ⟨[.text target.name], rfl, by simp [Json.AreTexts]⟩
        | _ => exact ⟨[], rfl, by simp [Json.AreTexts]⟩
    exact ⟨sent ++ found, by rw [Entry.integrationTypes, hs, hf]; rfl, hsentTexts.append hfound⟩

/-- The types from integrations are listed if states are looked up from sources. -/
theorem foreignTypes_typed (h : ∀ e ∈ m.entries, e.LooksUpSource) :
    ∃ ts, foreignTypes m = .ok ts := by
  have hslice : ∀ s ∈ m.slices, ∃ ts, s.integrationTypes = .ok ts ∧ Json.AreTexts ts := by
    intro s hs
    obtain ⟨tss, htss, htexts⟩ := mapM_texts s.server.data fun e he =>
      integrationTypes_entry e (h e (List.mem_flatMap.2 ⟨s, hs, he⟩))
    obtain ⟨ts, hts, hordered⟩ := orderedNames_texts htexts
    exact ⟨ts, by rw [Slice.integrationTypes, htss]; exact hts, hordered⟩
  obtain ⟨tss, htss, htexts⟩ := mapM_texts m.slices hslice
  obtain ⟨ts, hts, hordered⟩ := orderedNames_texts htexts
  have htypes : m.integrationTypes = .ok ts := by
    rw [Model.integrationTypes, htss]
    exact hts
  obtain ⟨names, hnames⟩ := listedNames_texts (hordered.filter _)
  exact ⟨names, by rw [foreignTypes, htypes]; exact hnames⟩

theorem integrationLines_text (is : List Integration) : ∃ ls, integrationLines is = .ok ls := by
  have hgroup : ∀ g : List Integration, ∃ ls, groupLines g = .ok ls := by
    intro g
    cases g with
    | nil => exact ⟨[], rfl⟩
    | cons i rest =>
      have hnames : Json.AreTexts ((i :: rest).map fun i => Leaf.value i.name) :=
        Json.AreTexts.map (fun i : Integration => i.name) (i :: rest)
      obtain ⟨ts, hts⟩ := listedNames_texts hnames
      exact ⟨_, by rw [groupLines, hts]; rfl⟩
  have hgroups : Verdict ((integrationGroups is).mapM groupLines) True :=
    (Verdict.mapM (P := fun _ => True) _ fun g _ => Verdict.of_ok (hgroup g)).congr (by simp)
  have hsources : Json.AreTexts (is.map fun i => Leaf.value i.source) :=
    Json.AreTexts.map (fun i : Integration => i.source) is
  rw [integrationLines, if_pos hsources.distinct.sortable]
  exact (hgroups.andThen fun tss => ⟨_, rfl⟩).accepted trivial

/-- Imports of known functions are never refused. -/
theorem importLines_text (config : Config) {functions : List String} (kinds : List MessageKind)
    (is : List Integration) (types : List String) (h : ∀ f ∈ functions, f ∈ dslFunctions) :
    ∃ ls, importLines config functions kinds is types = .ok ls := by
  have hknown : functions.filter (fun name => !dslFunctions.contains name) = [] := by
    simpa using h
  obtain ⟨ls, hls⟩ := integrationLines_text is
  rw [importLines, hknown, hls]
  exact ⟨_, rfl⟩

/-! ## Models -/

theorem buildersFor_importable {u : Usage} (h : u.Importable) : (buildersFor u).1.Importable := by
  unfold buildersFor
  split
  · exact h.function (by decide)
  · exact h

theorem accepts_flows (hm : m.IsTyped) :
    Accepts (m.flows.mapM (flowLines m)) (∀ s ∈ m.slices, IsServable m s) := by
  refine (Accepts.mapM m.flows fun f hf => accepts_flowLines f ?_ ?_).congr ?_
  · intro s hs b hb e he
    have hs : s ∈ m.slices := List.mem_flatMap.2 ⟨f, hf, hs⟩
    exact hm.examples e (List.mem_flatMap.2 ⟨s, hs, List.mem_flatMap.2 ⟨b, hb, he⟩⟩)
  · intro s hs e he
    have hs : s ∈ m.slices := List.mem_flatMap.2 ⟨f, hf, hs⟩
    exact hm.queries e (List.mem_flatMap.2 ⟨s, hs, he⟩)
  · simp only [Model.slices, List.mem_flatMap]
    constructor
    · rintro h s ⟨f, hf, hs⟩
      exact h f hf s hs
    · intro h f hf s hs
      exact h s ⟨f, hf, hs⟩

/-- What a model is refused for, as the checks find it. -/
theorem verdict_generate (config : Config) (hm : m.IsTyped) :
    Verdict (generate config m) (((m.messages.map (·.name)).Nodup ∧
      (m.integrations.map (·.name)).Nodup) ∧ (∀ s ∈ m.slices, IsServable m s) ∧
      ∀ n ∈ m.messages, isIdentifier n.name = true) := by
  have hcheck : Verdict (checkModel m) ((m.messages.map (·.name)).Nodup ∧
      (m.integrations.map (·.name)).Nodup) := by
    have hmessages := verdict_checkNames .duplicateMessages (fun _ => rfl)
      (m.messages.map (·.name))
    have hintegrations := verdict_checkNames .duplicateIntegrations (fun _ => rfl)
      (m.integrations.map (·.name))
    rw [List.map_map] at hmessages hintegrations
    exact hmessages.bind fun _ => hintegrations
  have hmessages : Verdict (m.messages.mapM messageLines) _ :=
    Verdict.mapM m.messages fun n hn =>
      verdict_messageLines n (hm.versions n hn) (hm.defaults n hn)
  obtain ⟨foreign, hforeign⟩ := foreignTypes_typed hm.states
  have hrun := accepts_flows hm {} (fun f hf => by cases hf)
  refine hcheck.bind fun _ => ?_
  by_cases hflows : ∀ s ∈ m.slices, IsServable m s
  · obtain ⟨flows, usage, hrun, himportable⟩ := hrun.1 hflows
    rw [hrun]
    refine (hmessages.andThen fun types => ?_).congr (and_iff_right hflows).symm
    obtain ⟨imports, himports⟩ := importLines_text config (m.messages.map (·.kind)) m.integrations
      foreign (buildersFor_importable himportable)
    refine ⟨joinSections ([imports] ++ types ++ [(buildersFor usage).2] ++ flows), ?_⟩
    rw [hforeign]
    show (importLines config (buildersFor usage).1.functions _ _ foreign >>= _) = _
    rw [himports]
    rfl
  · obtain ⟨fault, usage, hrun, hfault⟩ := hrun.2 hflows
    rw [hrun]
    exact (Verdict.throw hfault).congr ⟨False.elim, fun h => hflows h.1⟩

/-! ## The checks and the report -/

theorem message?_isSome (ref : String) :
    (∃ n, m.message? ref = some n) ↔ ∃ k, m.HasMessage ref k := by
  rw [Report.message?_text, ← Option.isSome_iff_exists, List.find?_isSome]
  simp [Model.HasMessage]

section

variable (hnames : ∀ n ∈ m.messages, isIdentifier n.name = true)
include hnames

/-- Where any kind will do, an example needs a message and finite data. -/
theorem isBuildable_iff (e : Example) :
    IsBuildable m none e ↔ (∃ k, m.HasMessage e.ref k) ∧ e.data.isFinite = true := by
  rw [← message?_isSome]
  constructor
  · rintro ⟨n, hn, -, -, hdata⟩
    exact ⟨⟨n, hn⟩, hdata⟩
  · rintro ⟨⟨n, hn⟩, hdata⟩
    refine ⟨n, hn, by simp, hnames n ?_, hdata⟩
    rw [Report.message?_text] at hn
    exact List.mem_of_find?_eq_some hn

end

theorem isBuildable_some (wanted : MessageKind) (e : Example) :
    IsBuildable m (some wanted) e ↔
      IsBuildable m none e ∧ ∀ n, m.message? e.ref = some n → n.kind = wanted := by
  simp only [IsBuildable]
  constructor
  · rintro ⟨n, hn, hkind, hname, hdata⟩
    refine ⟨⟨n, hn, by simp, hname, hdata⟩, fun n' hn' => ?_⟩
    rw [hn, Option.some.injEq] at hn'
    exact hn' ▸ hkind wanted rfl
  · rintro ⟨⟨n, hn, -, hname, hdata⟩, hkind⟩
    refine ⟨n, hn, fun wanted' hwanted => ?_, hname, hdata⟩
    rw [← Option.some.inj hwanted]
    exact hkind n hn

/-- The form of a block is checked by the report and while it is rendered, with one result. -/
theorem isTriggerable_iff (kind : SliceKind) (w : When) :
    IsTriggerable m kind w ↔
      (∀ e ∈ w.examples, IsBuildable m none e) ∧ Report.shapeProblem? m kind w = none := by
  cases kind <;> cases w
  case command.one e =>
    simp only [IsTriggerable, isBuildable_some, Report.shapeProblem?, Option.map_eq_none_iff,
      Report.misplaced?_eq_none, When.examples, List.forall_mem_singleton]
  case react.many es =>
    simp only [IsTriggerable, isBuildable_some, Report.shapeProblem?, Option.map_eq_none_iff,
      Report.misplaced?_eq_none, When.examples, forall_and]
  all_goals simp [IsTriggerable, Report.shapeProblem?, When.examples]

/-- The checks of a block, in the terms of the report. -/
theorem isChainable_iff (kind : SliceKind) (b : Spec) :
    IsChainable m kind b ↔ (∀ e ∈ b.examples, IsBuildable m none e) ∧
      Report.shapeProblem? m kind b.when = none ∧
      ∀ type message, Outcome.error type message ∈ b.outcomes → kind = .command := by
  have hmem : ∀ e, e ∈ b.examples ↔
      e ∈ b.given ∨ e ∈ b.when.examples ∨ Outcome.message e ∈ b.outcomes := by
    intro e
    simp only [Spec.examples, List.mem_append, List.mem_filterMap, or_assoc]
    refine or_congr_right (or_congr_right ⟨?_, fun h => ⟨_, h, rfl⟩⟩)
    rintro ⟨o, ho, he⟩
    cases o with
    | message e' => exact Option.some.inj he ▸ ho
    | error => cases he
  constructor
  · rintro ⟨hgiven, htrigger, houtcomes⟩
    obtain ⟨hwhen, hshape⟩ := (isTriggerable_iff kind b.when).1 htrigger
    refine ⟨fun e he => ?_, hshape, fun type message he => houtcomes _ he⟩
    rcases (hmem e).1 he with he | he | he
    · exact hgiven e he
    · exact hwhen e he
    · exact houtcomes _ he
  · rintro ⟨hexamples, hshape, herrors⟩
    refine ⟨fun e he => hexamples e ((hmem e).2 (Or.inl he)),
      (isTriggerable_iff kind b.when).2 ⟨fun e he => ?_, hshape⟩, fun o ho => ?_⟩
    · exact hexamples e ((hmem e).2 (Or.inr (Or.inl he)))
    · cases o with
      | message e => exact hexamples e ((hmem e).2 (Or.inr (Or.inr ho)))
      | error type message => exact herrors type message ho

/-- The checks of an entry, in the terms of the report. -/
theorem isWired_iff (e : Entry) :
    IsWired m e ↔ (∀ name ∈ e.systems, m.HasIntegration name) ∧
      e.Linked (fun name => isIdentifier name = true) ∧ ∀ q ∈ e.queries, q.isFinite = true := by
  rw [IsWired, ← and_assoc]
  refine and_congr_left fun _ => ⟨fun h => ⟨?_, ?_⟩, fun h => Entry.Linked.and e h.1 h.2⟩
  · exact Entry.Linked.systems e (Entry.Linked.mono (fun _ hn => hn.1) e h)
  · exact Entry.Linked.mono (fun _ hn => hn.2) e h

/-- The report and the checks agree. -/
theorem isRenderable_iff (m : Model) :
    m.IsRenderable ↔ ((m.messages.map (·.name)).Nodup ∧
      (m.integrations.map (·.name)).Nodup) ∧ (∀ s ∈ m.slices, IsServable m s) ∧
      ∀ n ∈ m.messages, isIdentifier n.name = true := by
  constructor
  · rintro ⟨⟨r, hr, hmessages, hrefs, hsystems, hshapes⟩, hintegrations, hnames, hlinked, herrors,
      hexamples, hqueries⟩
    rw [Model.report?_eq, Option.some.injEq] at hr
    subst hr
    rw [Model.report_duplicateMessages] at hmessages
    rw [Model.report_undefinedReferences] at hrefs
    rw [Model.report_undefinedIntegrations] at hsystems
    rw [Model.report_shapeMismatches] at hshapes
    refine ⟨⟨hmessages, hintegrations⟩, fun s hs => ⟨fun b hb => ?_, fun e he => ?_⟩, hnames⟩
    · refine (isChainable_iff s.kind b).2 ⟨fun e he => ?_, hshapes s hs b hb, herrors s hs b hb⟩
      have he : e ∈ m.examples := List.mem_flatMap.2 ⟨s, hs, List.mem_flatMap.2 ⟨b, hb, he⟩⟩
      exact (isBuildable_iff hnames e).2 ⟨hrefs e he, hexamples e he⟩
    · have hmem : e ∈ m.entries := List.mem_flatMap.2 ⟨s, hs, he⟩
      exact (isWired_iff e).2 ⟨hsystems s hs e he, hlinked e hmem, hqueries e hmem⟩
  · rintro ⟨⟨hmessages, hintegrations⟩, hslices, hnames⟩
    have hspec : ∀ s ∈ m.slices, ∀ b ∈ s.server.specs, _ := fun s hs b hb =>
      (isChainable_iff s.kind b).1 ((hslices s hs).specs b hb)
    have hexample : ∀ e ∈ m.examples,
        (∃ k, m.HasMessage e.ref k) ∧ e.data.isFinite = true := by
      intro e he
      obtain ⟨s, hs, he⟩ := List.mem_flatMap.1 he
      obtain ⟨b, hb, he⟩ := List.mem_flatMap.1 he
      exact (isBuildable_iff hnames e).1 ((hspec s hs b hb).1 e he)
    have hentry : ∀ s ∈ m.slices, ∀ e ∈ s.server.data, _ := fun s hs e he =>
      (isWired_iff e).1 ((hslices s hs).data e he)
    have hentries : ∀ e ∈ m.entries, e.Linked (fun name => isIdentifier name = true) ∧
        ∀ q ∈ e.queries, q.isFinite = true := by
      intro e he
      obtain ⟨s, hs, he⟩ := List.mem_flatMap.1 he
      exact (hentry s hs e he).2
    exact {
      report := ⟨m.report, m.report?_eq, Model.report_duplicateMessages.2 hmessages,
        Model.report_undefinedReferences.2 fun e he => (hexample e he).1,
        Model.report_undefinedIntegrations.2 fun s hs e he => (hentry s hs e he).1,
        Model.report_shapeMismatches.2 fun s hs b hb => (hspec s hs b hb).2.1⟩
      integrationNames := hintegrations
      messageNames := hnames
      systems := fun e he => (hentries e he).1
      errors := fun s hs b hb => (hspec s hs b hb).2.2
      examples := fun e he => (hexample e he).2
      queries := fun e he => (hentries e he).2 }

/-- A model of the right types is rendered exactly if it is renderable, and refused otherwise. -/
theorem generate_accepts_renderable (config : Config) (m : Model) (hm : m.IsTyped) :
    ((∃ text, generate config m = .ok text) ↔ m.IsRenderable) ∧
      ∀ fault, generate config m = .error fault → fault.isRefusal = true := by
  have hverdict := (verdict_generate config hm).congr (isRenderable_iff m).symm
  refine ⟨⟨fun ⟨text, htext⟩ => ?_, hverdict.accepted⟩, fun fault hfault => ?_⟩
  · by_contra hrefused
    obtain ⟨fault, hfault, -⟩ := hverdict.refused hrefused
    rw [htext] at hfault
    cases hfault
  · by_cases hm : m.IsRenderable
    · obtain ⟨text, htext⟩ := hverdict.accepted hm
      rw [htext] at hfault
      cases hfault
    · obtain ⟨fault', hfault', hrefusal⟩ := hverdict.refused hm
      rw [hfault', Except.error.injEq] at hfault
      exact hfault ▸ hrefusal

/-- Items are restocked by an integration, which is told the stock that a database has. -/
def restocking (stock : Json) : Model :=
  { flows := [{ name := "Restocking", slices := [{
      kind := .command
      name := "Restock"
      server := {
        description := ""
        specs := [{ when := .one ⟨"Restock", .object [("amount", .int 3)]⟩,
                    outcomes := [.error .notFound none] }]
        data := [.sink ⟨.command, "Restock"⟩ (.integration ["Warehouse"] none)
          (some (.source ⟨.state, "Stock"⟩ (.database "stock" (.object [("left", stock)])) none))
          none] } }] }]
    messages := [{ name := "Restock", kind := .command, version := 1 }]
    integrations := [{ name := "Warehouse", source := "./warehouse" }] }

/-- Whether items are restocked depends on whether the stock is a number. -/
theorem generate_accepts_renderable_restocking :
    (restocking (.int 2)).IsTyped ∧ (∃ text, generate {} (restocking (.int 2)) = .ok text) ∧
      (restocking (.number (.double .nan))).IsTyped ∧
        ¬(restocking (.number (.double .nan))).IsRenderable := by
  have htyped : ∀ stock : Json, stock.isWritable = true → (restocking stock).IsTyped := by
    intro stock hstock
    have hamount : (Json.object [("amount", .int 3)]).isWritable = true := by decide +kernel
    have hversion : (Json.int 1).isWritable = true := by decide +kernel
    refine ⟨?_, ?_, ?_, by simpa [restocking] using hversion, by simp [restocking]⟩
    · simp [restocking, Model.entries, Model.slices, Entry.LooksUpSource, Entry.isSource]
    · simpa [restocking, Model.examples, Model.slices, Spec.examples, When.examples,
        Outcome.example?] using hamount
    · simp [restocking, Model.entries, Model.slices, Entry.queries, Json.isWritable,
        Json.membersWritable, hstock]
  have hint : (restocking (.int 2)).IsTyped := htyped _ (by decide +kernel)
  have hnan : (restocking (.number (.double .nan))).IsTyped := htyped _ (by decide +kernel)
  have hwarehouse : isIdentifier "Warehouse" = true := by decide
  have hrenderable : (restocking (.int 2)).IsRenderable := {
    report := ⟨_, Model.report?_eq _, Model.report_duplicateMessages.2 (by decide),
      Model.report_undefinedReferences.2 (by
        simp [restocking, Model.examples, Model.slices, Spec.examples, When.examples,
          Outcome.example?, Model.HasMessage]),
      Model.report_undefinedIntegrations.2 (by
        simp [restocking, Model.slices, Entry.systems, Model.HasIntegration]),
      Model.report_shapeMismatches.2 (by decide)⟩
    integrationNames := by decide
    messageNames := by decide
    systems := by
      simp [restocking, Model.entries, Model.slices, Entry.Linked, Destination.Linked,
        Origin.Linked, Systems.Linked, hwarehouse]
    errors := by simp [restocking, Model.slices]
    examples := by decide
    queries := by decide }
  refine ⟨hint, (generate_accepts_renderable {} _ hint).1.2 hrenderable, hnan, fun hnumber => ?_⟩
  obtain ⟨text, htext⟩ := (generate_accepts_renderable {} _ hnan).1.2 hnumber
  have hrefused : generate {} (restocking (.number (.double .nan))) =
      .error (.notFinite .nan) := by decide +kernel
  rw [hrefused] at htext
  cases htext

end Emission

end EventFlow
