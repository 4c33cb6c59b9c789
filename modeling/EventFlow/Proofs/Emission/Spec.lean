import EventFlow.Proofs.Emission.Literal
import EventFlow.Proofs.Emission.Rendering
import EventFlow.Proofs.Extraction.Answer
import EventFlow.Proofs.Model.Report

/-! Blocks of examples survive rendering and reading.

    Renders (specChain m kind s) fun t => Writes d t fun e => Answers (specOf declared kind e) s

The shape of a chain is taken from the kind of the slice when it is rendered, and the kind from the
shape when it is read; what is given, what sets the block off and what follows are kept apart by
the names of the steps alone. -/

namespace EventFlow

open Text Token

variable {expected : Option MessageKind} {ref : String} {n : Message} {s : Spec}

/-- An object that a literal gives back, with containers nested at most `d` deep. -/
structure Json.IsPayload (d : Nat) (v : Json) : Prop where
  isObject : ∃ ms, v = .object ms
  exact : v.isExact = true
  clean : v.hasCleanKeys = true
  depth : v.depth ≤ d

/-- The names of the messages are distinct and can stand in code. -/
structure Model.NamesMessages (m : Model) : Prop where
  distinct : (m.messages.map (·.name)).Nodup
  full : ∀ n ∈ m.messages, isFullName n.name = true

theorem Model.NamesMessages.find {m : Model} (hm : m.NamesMessages) {kind : MessageKind}
    (h : m.HasMessage ref kind) :
    ∃ n, m.message? ref = some n ∧ n.name = ref ∧ n.kind = kind ∧
      isFullName ref = true := by
  obtain ⟨x, hx, hname, -⟩ := id h
  cases hn : m.message? ref with
  | none =>
    rw [Report.message?_text, List.find?_eq_none] at hn
    exact absurd hname (by simpa using hn x hx)
  | some n =>
    have hkind := Report.kind_of_message? m hm.distinct ref kind h n hn
    rw [Report.message?_text] at hn
    have hmem := List.mem_of_find?_eq_some hn
    have hnn : n.name = ref := by simpa using List.find?_some hn
    exact ⟨n, rfl, hnn, hkind, hnn ▸ hm.full n hmem⟩

/-- What was declared are the messages of the model, and no name stands for another. -/
structure Declared.Covers (declared : Declared) (m : Model) : Prop where
  messages : declared.messages = m.messages
  aliases : declared.aliases = []

theorem Declared.Covers.message? {declared : Declared} {m : Model} (h : declared.Covers m)
    (ref : String) : declared.message? ref = m.message? ref := by
  rw [Report.message?_text, Declared.message?, h.messages]

theorem Declared.Covers.resolve {declared : Declared} {m : Model} (h : declared.Covers m)
    (hn : m.message? ref = some n) : declared.resolve ref = ref := by
  simp [Declared.resolve, h.aliases, h.message?, hn]

namespace Emission

open Extraction

variable {m : Model} {declared : Declared} {d : Nat} {names : List String} {e : Expr}
  {kind : SliceKind} {P : Expr → Prop}

/-! ## Examples -/

/-- A call that is read as the example. -/
def IsExample (declared : Declared) (expected : Option MessageKind) (x : Example) (e : Expr) :
    Prop :=
  (∃ line callee args types, e = .call line callee args types) ∧
    ∀ names, Answers names (exampleOf declared expected e) x

theorem ofBuilder?_builder (kind : MessageKind) :
    MessageKind.ofBuilder? kind.builder = some kind := by
  cases kind <;> decide

/-- A message that is declared is no news. -/
theorem answers_noteMessage (hd : declared.Covers m) (hn : m.message? ref = some n) (line : Nat)
    (data : Json.Members) :
    Answers names (noteMessage declared line ref n.kind data) () := by
  intro f
  refine ⟨f, ?_, .refl names f⟩
  simp [noteMessage, knownKind?, hd.message?, hn, bind, StateT.bind, get, getThe,
    MonadStateOf.get, StateT.get, Except.bind, pure, Except.pure]
  rfl

theorem isExample_of_call (hd : declared.Covers m) {x : Example} (hn : m.message? x.ref = some n)
    (hexpected : ∀ wanted ∈ expected, n.kind = wanted) {ms : Json.Members}
    (hdata : x.data = .object ms) (hnodup : (ms.map (·.1)).Nodup) (he : IsObject ms e)
    (line line' line'' : Nat) :
    IsExample declared expected x
      (.call line (.member line' (.identifier line'' n.kind.builder) x.ref) [e] none) := by
  refine ⟨⟨_, _, _, _, rfl⟩, fun names => ?_⟩
  obtain ⟨l, ps, rfl, hps⟩ := he
  have hread : exampleData line n.kind x.ref [.object l ps] = .ok ms := by
    rw [exampleData, hps]
    show Except.ok (Json.ofPairs ms) = _
    rw [Json.ofPairs_of_nodup hnodup]
  have hx : x = ⟨x.ref, .object ms⟩ := by rw [← hdata]
  rw [exampleOf_of_builder declared (ofBuilder?_builder _) hexpected]
  refine Answers.bind (Answers.lift hread) ?_
  rw [hd.resolve hn]
  refine Answers.bind (answers_noteMessage hd hn line ms) ?_
  rw [← hx]
  exact Answers.pure x

theorem renders_exampleCall (hm : m.NamesMessages) (hd : declared.Covers m) {x : Example}
    {kind : MessageKind} (hkind : m.HasMessage x.ref kind) (hx : x.data.IsPayload d)
    (hexpected : ∀ wanted ∈ expected, kind = wanted) :
    Renders (exampleCall m expected x) fun t =>
      Writes (d + 1) t (IsExample declared expected x) := by
  obtain ⟨n, hn, hname, rfl, hfull⟩ := hm.find hkind
  obtain ⟨ms, hms⟩ := hx.isObject
  have hexact := hx.exact
  have hclean := hx.clean
  have hdepth := hx.depth
  rw [hms] at hexact hclean hdepth
  obtain ⟨data, hdata, hwrites⟩ := writes_objectLiteral ms hexact hclean hdepth
  have hnodup : (ms.map (·.1)).Nodup := Json.nodup_of_isExact hexact
  have hbuilder : isFullName n.kind.builder = true ∧
      Program.isCallable n.kind.builder = true := by
    cases n.kind <;> decide
  have hcall := Writes.memberCall (P := fun (_ : Unit) => IsObject ms)
    (.cons hwrites .nil : List.Forall₂ _ [data] [()]) hbuilder.1 hbuilder.2 hfull
  have hident : identifier .messageName n.name = (.ok x.ref : Except Fault String) := by
    rw [hname]
    exact identifier_of_isFullName _ hfull
  rw [exampleCall_of_message hn hexpected]
  refine Renders.lift_bind hident ?_
  refine Renders.bind (Renders.useMessage n.kind hfull) fun _ _ => ?_
  rw [hms]
  refine Renders.lift_bind hdata ?_
  refine Renders.pure (hcall.mono ?_)
  rintro e ⟨line, line', line'', es, rfl, hes⟩
  obtain ⟨e, rfl, he⟩ : ∃ e, es = [e] ∧ IsObject ms e := by
    cases hes with
    | cons he hrest => cases hrest; exact ⟨_, rfl, he⟩
  exact isExample_of_call hd hn hexpected hms hnodup he line line' line''

/-- An array of what the items are read as. -/
def IsArray {α : Type} (P : α → Expr → Prop) (xs : List α) (e : Expr) : Prop :=
  ∃ line es, e = .array line es ∧ List.Forall₂ (fun e x => P x e) es xs

theorem Answers.examples {es : List Expr} {xs : List Example}
    (h : List.Forall₂ (fun e x => IsExample declared expected x e) es xs) :
    Answers names (es.mapM (exampleOf declared expected)) xs :=
  Answers.mapM (h.imp fun _ _ he => he.2 names)

/-! ## Outcomes -/

/-- An expression that is read as the outcome. -/
def IsOutcome (declared : Declared) (kind : SliceKind) (x : Outcome) (e : Expr) : Prop :=
  ∀ names, Answers names (outcomeOf declared kind e) x

theorem isOutcome_of_isExample {x : Example} (h : IsExample declared none x e) :
    IsOutcome declared kind (.message x) e := by
  obtain ⟨⟨line, callee, args, types, rfl⟩, hanswers⟩ := h
  intro names
  exact Answers.bind (hanswers names) (Answers.pure _)

theorem ofWord?_word (type : ErrorType) : ErrorType.ofWord? type.word = some type := by
  cases type <;> decide

/-- An object whose members are texts under plain names. -/
theorem Writes.texts (d : Nat) {ms : List (String × String)}
    (h : ∀ x ∈ ms, isFullName x.1 = true) :
    Writes (d + 1) (r"{ " ++ joinWith ", " (ms.map fun x => x.1 ++ ": " ++ quote x.2) ++
        r" }") (IsObject (ms.map fun x => (x.1, Json.text x.2))) := by
  have hmembers : List.Forall₂ (fun t (x : String × String) => WritesMember (d + 1) t fun p =>
      ∃ line e, p = .keyed line x.1 e ∧ ∃ l, e = .text l x.2)
      (ms.map fun x => x.1 ++ ": " ++ quote x.2) ms := by
    rw [List.forall₂_map_left_iff, List.forall₂_same]
    exact fun x hx => WritesMember.named (h x hx) (Writes.text d x.2)
  refine (Writes.object hmembers).mono ?_
  rintro e ⟨line, ps, rfl, hps⟩
  refine ⟨line, ps, rfl, literalMembers_of_denotes ?_⟩
  rw [List.forall₂_map_right_iff]
  refine hps.imp ?_
  rintro p x ⟨l, e, rfl, l', rfl⟩
  exact ⟨l, _, rfl, by rw [Denotes, Extraction.literal]⟩

/-- What an error says, by name. -/
def errorTexts (type : ErrorType) (message : Option String) : List (String × String) :=
  ("errorType", type.word) :: (message.map ("message", ·)).toList

theorem errorOf_errorTexts (line : Nat) (type : ErrorType) (message : Option String) :
    errorOf line (Json.ofPairs ((errorTexts type message).map fun x => (x.1, Json.text x.2))) =
      .ok (.error type message) := by
  rw [Json.ofPairs_of_nodup (by cases message <;> simp [errorTexts])]
  cases message with
  | none =>
    simp only [errorOf, errorTexts, Option.map_none, Option.toList_none, List.map_cons,
      List.map_nil, Json.get?]
    simp [ofWord?_word, errorMessage]
  | some s => simp [errorOf, errorTexts, Json.get?, ofWord?_word, errorMessage]

theorem isOutcome_error {type : ErrorType} {message : Option String}
    (h : IsObject ((errorTexts type message).map fun x => (x.1, Json.text x.2)) e) :
    IsOutcome declared .command (.error type message) e := by
  obtain ⟨line, ps, rfl, hps⟩ := h
  intro names
  exact Answers.bind (Answers.lift hps) (Answers.lift (errorOf_errorTexts line type message))

theorem errorLiteral_eq (type : ErrorType) (message : Option String) :
    errorLiteral type message = .ok (r"{ " ++ joinWith ", "
      ((errorTexts type message).map fun x => x.1 ++ ": " ++ quote x.2) ++ r" }") := by
  cases message with
  | none => rfl
  | some s =>
    simp only [errorLiteral, quotedOption, quoted_text]
    rfl

theorem renders_outcomeText (hm : m.NamesMessages) (hd : declared.Covers m) (d : Nat) {x : Outcome}
    (hrefs : ∀ y ∈ x.example?, (∃ k, m.HasMessage y.ref k) ∧ y.data.IsPayload d)
    (herror : ∀ type message, x = .error type message → kind = .command) :
    Renders (outcomeText m kind x) fun t => Writes (d + 1) t (IsOutcome declared kind x) := by
  cases x with
  | message y =>
    obtain ⟨⟨k, hk⟩, hy⟩ := hrefs y rfl
    exact (renders_exampleCall hm hd hk hy (by simp)).mono fun t ht =>
      ht.mono fun e he => isOutcome_of_isExample he
  | error type message =>
    obtain rfl := herror type message rfl
    rw [outcomeText, if_pos rfl]
    refine Renders.lift (errorLiteral_eq type message) ?_
    have hfull : ∀ x ∈ errorTexts type message, isFullName x.1 = true := by
      cases message <;> simp [errorTexts] <;> decide
    exact (Writes.texts d hfull).mono fun e he => isOutcome_error he

/-! ## Chains -/

theorem Writes.single {t : String} (h : Writes d t P) :
    List.Forall₂ (fun t (_ : Unit) => Writes d t P) [t] [()] :=
  .cons h .nil

theorem eq_singleton_of_forall₂ {es : List Expr}
    (h : List.Forall₂ (fun e (_ : Unit) => P e) es [()]) : ∃ e, es = [e] ∧ P e := by
  cases h with
  | cons he hrest => cases hrest; exact ⟨_, rfl, he⟩

/-- A method call with one argument. -/
theorem WritesLinks.one {t : String} (h : Writes d t P) {method : String}
    (hmethod : isFullName method = true) :
    WritesLinks (d + 1) (methodCall method [t]) fun links =>
      ∃ line e, links = [⟨line, method, [e], none⟩] ∧ P e := by
  refine (WritesLinks.method h.single hmethod).mono ?_
  rintro links ⟨line, es, rfl, hes⟩
  obtain ⟨e, rfl, he⟩ := eq_singleton_of_forall₂ hes
  exact ⟨line, e, rfl, he⟩

/-- A chain of two steps. -/
theorem Writes.twoSteps {f a b : String} {first : Step} {Q : Expr → Prop}
    (hf : (f, first) ∈ [("given", Step.given), ("when", .when)]) (ha : Writes d a P)
    (hb : Writes d b Q) :
    Writes (d + 1) (f ++ "(" ++ a ++ ")" ++ methodCall "then" [b]) fun e =>
      ∃ x y, stepsOf e = .ok [(first, x), (.outcome, y)] ∧ P x ∧ Q y := by
  have hname : isFullName f = true ∧ Program.isCallable f = true := by
    simp only [List.mem_cons, Prod.mk.injEq, List.not_mem_nil, or_false] at hf
    rcases hf with ⟨rfl, -⟩ | ⟨rfl, -⟩ <;> decide
  refine (Writes.chain ha.single hname.1 hname.2 (WritesLinks.one hb (by decide))).mono ?_
  rintro e ⟨line, line', es, chain, hchain, hes, line'', y, rfl, hy⟩
  obtain ⟨x, rfl, hx⟩ := eq_singleton_of_forall₂ hes
  refine ⟨x, y, ?_, hx, hy⟩
  simp only [List.mem_cons, Prod.mk.injEq, List.not_mem_nil, or_false] at hf
  rcases hf with ⟨rfl, rfl⟩ | ⟨rfl, rfl⟩ <;>
    simp [stepsOf, hchain, Expr.calleeName?, Expr.arguments, stepsFrom, Step.ofName?, Step.index,
      bind, Except.bind, pure, Except.pure]

/-- A chain of three steps. -/
theorem Writes.threeSteps {a b c : String} {Q R : Expr → Prop} (ha : Writes d a P)
    (hb : Writes d b Q) (hc : Writes d c R) :
    Writes (d + 1) ("given" ++ "(" ++ a ++ ")" ++ (methodCall "when" [b] ++ methodCall "then" [c]))
      fun e => ∃ x y z, stepsOf e = .ok [(.given, x), (.when, y), (.outcome, z)] ∧
        P x ∧ Q y ∧ R z := by
  have hlinks := (WritesLinks.one hb (by decide : isFullName "when" = true)).append
    (WritesLinks.one hc (by decide : isFullName "then" = true))
  refine (Writes.chain ha.single (f := "given") (by decide) (by decide) hlinks).mono ?_
  rintro e ⟨line, line', es, chain, hchain, hes, _, _, rfl, ⟨l, y, rfl, hy⟩, l', z, rfl, hz⟩
  obtain ⟨x, rfl, hx⟩ := eq_singleton_of_forall₂ hes
  refine ⟨x, y, z, ?_, hx, hy, hz⟩
  simp [stepsOf, hchain, Expr.calleeName?, Expr.arguments, stepsFrom, Step.ofName?, Step.index,
    bind, Except.bind, pure, Except.pure]

/-! ## Blocks -/

/-- What stands in the place of a trigger is read as what sets the block off. -/
def IsTrigger (declared : Declared) (kind : SliceKind) (w : When) (e : Option Expr) : Prop :=
  shapeOf e = kind ∧ ∀ names, Answers names (whenOf declared e) w

theorem answers_specOf {o : Expr} {steps : List (Step × Expr)} (hsteps : stepsOf e = .ok steps)
    (hgiven : List.Forall₂ (fun e x => IsExample declared none x e)
      (((steps.lookup .given).map itemsOf).getD []) s.given)
    (htrigger : IsTrigger declared kind s.when (steps.lookup .when))
    (houtcome : steps.lookup .outcome = some o)
    (houtcomes : IsArray (IsOutcome declared kind) s.outcomes o) :
    Answers names (specOf declared kind e) s := by
  obtain ⟨line, os, rfl, hos⟩ := houtcomes
  have htail : Answers names (do
      let given ← (((steps.lookup .given).map itemsOf).getD []).mapM (exampleOf declared none)
      let trigger ← whenOf declared (steps.lookup .when)
      let outcomes ← (itemsOf (.array line os)).mapM (outcomeOf declared kind)
      return (⟨given, trigger, outcomes⟩ : Spec)) s := by
    refine Answers.bind (Answers.examples hgiven) ?_
    refine Answers.bind (htrigger.2 names) ?_
    exact Answers.bind (Answers.mapM (hos.imp fun _ _ h => h names)) (Answers.pure _)
  unfold specOf
  refine Answers.bind (Answers.lift hsteps) ?_
  simp only [houtcome, htrigger.1, ne_eq, not_true_eq_false, if_false]
  exact htail

/-- The examples of a block name messages of the model and have data that literals give back. -/
def Illustrated (m : Model) (d : Nat) (xs : List Example) : Prop :=
  ∀ x ∈ xs, (∃ k, m.HasMessage x.ref k) ∧ x.data.IsPayload d

theorem renders_givenSteps (hm : m.NamesMessages) (hd : declared.Covers m) {xs : List Example}
    (h : Illustrated m d xs) :
    Renders (givenSteps m xs) fun ts => (xs = [] ∧ ts = []) ∨
      ∃ t, ts = ["given(" ++ t ++ ")"] ∧
        Writes (d + 2) t (IsArray (IsExample declared none) xs) := by
  unfold givenSteps
  cases xs with
  | nil => exact Renders.pure (Or.inl ⟨rfl, rfl⟩)
  | cons x xs =>
    rw [if_neg (by simp)]
    refine Renders.bind (Renders.mapM (P := fun x t => Writes (d + 1) t (IsExample declared none x))
      fun y hy => ?_) fun ts hts => ?_
    · obtain ⟨⟨k, hk⟩, hy⟩ := h y hy
      exact renders_exampleCall hm hd hk hy (by simp)
    · refine Renders.useFunction (by decide) ?_
      exact Renders.pure (Or.inr ⟨_, rfl, Writes.array hts⟩)

theorem renders_whenSteps (hm : m.NamesMessages) (hd : declared.Covers m) {w : When}
    (hfits : w.Fits m.HasMessage kind) (h : ∀ x ∈ w.examples, x.data.IsPayload d) :
    Renders (whenSteps m kind w) fun ts => (ts = [] ∧ IsTrigger declared kind w none) ∨
      ∃ t, ts = ["when(" ++ t ++ ")"] ∧
        Writes (d + 2) t fun e => IsTrigger declared kind w (some e) := by
  cases kind with
  | command =>
    cases w with
    | nothing => cases hfits
    | many xs => cases hfits
    | one x =>
      have hx : x.data.IsPayload (d + 1) :=
        have hx := h x (by simp [When.examples])
        { hx with depth := Nat.le_succ_of_le hx.depth }
      have hcommand : ∀ wanted ∈ some MessageKind.command, MessageKind.command = wanted := by simp
      refine Renders.bind (renders_exampleCall hm hd hfits hx hcommand) fun t ht => ?_
      refine Renders.useFunction (by decide) ?_
      refine Renders.pure (Or.inr ⟨t, rfl, ht.mono ?_⟩)
      rintro e ⟨⟨line, callee, args, types, rfl⟩, hanswers⟩
      exact ⟨rfl, fun names => Answers.bind (hanswers names) (Answers.pure _)⟩
  | react =>
    cases w with
    | nothing => cases hfits
    | one x => cases hfits
    | many xs =>
      refine Renders.bind (Renders.mapM
        (P := fun x t => Writes (d + 1) t (IsExample declared (some .event) x)) fun y hy => ?_)
        fun ts hts => ?_
      · exact renders_exampleCall hm hd (hfits y hy) (h y hy) (by simp)
      · refine Renders.useFunction (by decide) ?_
        refine Renders.pure (Or.inr ⟨_, rfl, (Writes.array hts).mono ?_⟩)
        rintro e ⟨line, es, rfl, hes⟩
        exact ⟨rfl, fun names => Answers.bind (Answers.examples hes) (Answers.pure _)⟩
  | query =>
    cases w with
    | one x => cases hfits
    | many xs => cases hfits
    | nothing => exact Renders.pure (Or.inl ⟨rfl, rfl, fun names => Answers.pure _⟩)

/-- What a chain is read as. -/
def IsSpec (declared : Declared) (kind : SliceKind) (s : Spec) (e : Expr) : Prop :=
  ∀ names, Answers names (specOf declared kind e) s

/-- A chain of one or two steps goes on with the outcomes. -/
theorem renders_specEnd (hm : m.NamesMessages) (hd : declared.Covers m)
    (hfits : s.Fits m.HasMessage kind) (hall : Illustrated m d s.examples) {steps : List String}
    (hsteps : ∀ o, Writes (d + 2) o (IsArray (IsOutcome declared kind) s.outcomes) →
      Writes (d + 3) (joinWith "." steps ++ methodCall "then" [o]) (IsSpec declared kind s))
    (hopens : ∃ f ∈ ["given", "when"], ∃ x, joinWith "." steps = f ++ "(" ++ x) :
    Renders (specEnd m kind s steps) fun t => Writes (d + 3) t (IsSpec declared kind s) ∧
      ∃ f ∈ ["given", "when"], ∃ x, t = f ++ "(" ++ x := by
  obtain ⟨f, hf, x, hx⟩ := hopens
  refine Renders.bind (Renders.mapM
    (P := fun x t => Writes (d + 1) t (IsOutcome declared kind x)) fun x hx => ?_)
    fun ts hts => ?_
  · refine renders_outcomeText hm hd d (fun y hy => hall y ?_) fun type message hx' =>
      hfits.errors type message (hx' ▸ hx)
    simp only [Spec.examples, List.mem_append, List.mem_filterMap]
    exact Or.inr ⟨x, hx, hy⟩
  · have hthen : methodCall "then" [bracketed ts] = ".then(" ++ bracketed ts ++ ")" := by
      simp only [methodCall, joinWith]
      rfl
    refine Renders.pure ⟨?_, f, hf, x ++ (".then(" ++ (bracketed ts ++ ")")), ?_⟩
    · have := hsteps _ (Writes.array hts)
      rwa [hthen, ← String.append_assoc, ← String.append_assoc] at this
    · rw [hx]
      simp only [String.append_assoc]

theorem renders_specChain (hm : m.NamesMessages) (hd : declared.Covers m)
    (hfits : s.Fits m.HasMessage kind) (hpayload : ∀ x ∈ s.examples, x.data.IsPayload d) :
    Renders (specChain m kind s) fun t => Writes (d + 3) t (IsSpec declared kind s) ∧
      ∃ f ∈ ["given", "when"], ∃ x, t = f ++ "(" ++ x := by
  have hall : Illustrated m d s.examples := fun x hx => ⟨hfits.refs x hx, hpayload x hx⟩
  unfold specChain
  refine Renders.bind (renders_givenSteps hm hd (d := d) fun x hx => hall x (by
    simp [Spec.examples, hx])) fun given hgiven => ?_
  refine Renders.bind (renders_whenSteps hm hd (d := d) hfits.trigger fun x hx => (hall x (by
    simp [Spec.examples, hx])).2) fun trigger htrigger => ?_
  rcases hgiven with ⟨hnil, rfl⟩ | ⟨g, rfl, hg⟩ <;> rcases htrigger with ⟨rfl, ht⟩ | ⟨w, rfl, hw⟩
  · -- nothing is given and nothing sets the block off: an empty list is given
    refine Renders.useFunction (by decide) ?_
    refine Renders.bind (Renders.pure rfl) ?_
    rintro steps rfl
    refine renders_specEnd hm hd hfits hall (fun o ho => ?_) ⟨"given", by simp, "[])", rfl⟩
    have hempty : Writes (d + 2) "[]" (IsArray (IsExample declared none) s.given) := by
      rw [hnil]
      exact Writes.array .nil
    refine (Writes.twoSteps (f := "given") (List.mem_cons_self) hempty ho).mono ?_
    rintro e ⟨x, y, hsteps, ⟨line, es, rfl, hes⟩, hy⟩ names
    exact answers_specOf hsteps hes ht rfl hy
  · refine Renders.bind (Renders.pure rfl) ?_
    rintro steps rfl
    refine renders_specEnd hm hd hfits hall (fun o ho => ?_) ⟨"when", by simp, w ++ ")", by
      rw [← String.append_assoc]; rfl⟩
    refine (Writes.twoSteps (f := "when")
      (List.mem_cons_of_mem _ List.mem_cons_self) hw ho).mono ?_
    rintro e ⟨x, y, hsteps, hx, hy⟩ names
    exact answers_specOf hsteps (hnil ▸ .nil) hx rfl hy
  · refine Renders.bind (Renders.pure rfl) ?_
    rintro steps rfl
    refine renders_specEnd hm hd hfits hall (fun o ho => ?_) ⟨"given", by simp, g ++ ")", by
      rw [← String.append_assoc]; rfl⟩
    refine (Writes.twoSteps (f := "given") (List.mem_cons_self) hg ho).mono ?_
    rintro e ⟨x, y, hsteps, ⟨line, es, rfl, hes⟩, hy⟩ names
    exact answers_specOf hsteps hes ht rfl hy
  · refine Renders.bind (Renders.pure rfl) ?_
    rintro steps rfl
    have hjoin : joinWith "." (["given(" ++ g ++ ")"] ++ ["when(" ++ w ++ ")"]) =
        "given" ++ "(" ++ (g ++ (")" ++ ("." ++ ("when" ++ ("(" ++ (w ++ ")")))))) := by
      have hgiven : ("given(" : String) = "given" ++ "(" := rfl
      have hwhen : ("when(" : String) = "when" ++ "(" := rfl
      simp only [List.cons_append, List.nil_append, joinWith, hgiven, hwhen,
        String.append_assoc]
    refine renders_specEnd hm hd hfits hall (fun o ho => ?_) ⟨"given", by simp, _, hjoin⟩
    have htext : joinWith "." (["given(" ++ g ++ ")"] ++ ["when(" ++ w ++ ")"]) ++
        methodCall "then" [o] =
          "given" ++ "(" ++ g ++ ")" ++ (methodCall "when" [w] ++ methodCall "then" [o]) := by
      rw [hjoin]
      simp only [methodCall, joinWith, String.append_assoc]
    rw [htext]
    refine (Writes.threeSteps hg hw ho).mono ?_
    rintro e ⟨x, y, z, hsteps, ⟨line, es, rfl, hes⟩, hy, hz⟩ names
    exact answers_specOf hsteps hes hy rfl hz

end Emission

end EventFlow
