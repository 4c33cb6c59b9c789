import EventFlow.Proofs.Emission.Acceptance
import EventFlow.Proofs.Emission.Entry
import EventFlow.Proofs.Emission.Snippet
import EventFlow.Proofs.Extraction.Parts
import EventFlow.Proofs.Json.RoundTrip

/-! The parts of a file survive rendering and reading on their own.

A literal, the chain of a block and the chain of a pipeline entry are each a program of one
expression, from which the part is read back as it was:

    literal v = ok t        →  t parses to one e, and Extraction.literal e = ok v
    specChain m kind s      →  its text parses to one e, and specOf declared kind e gives s
    entryChain m x          →  its text parses to one e, and entryOf n e gives x

Here no bound on the nesting is left: the text is as deep as the data in it are. What cannot be
written is an integer that is too long, in a query as elsewhere, and then there is no text. -/

namespace EventFlow.Emission

open Extraction
open Program (Parses)

variable {fault : Fault} {α : Type} {t : String} {v : Json}

/-! ## Literals -/

theorem isOpening_of_isDigit {c : Char} (h : c.isDigit = true) : isOpening c = true := by
  have hall : ∀ n < 128, (Char.ofNat n).isDigit = true → isOpening (Char.ofNat n) = true := by
    decide
  have hlt := Token.toNat_lt_of_isNamePart (Token.isDigit_facts h).1
  rw [← Char.ofNat_toNat c] at h ⊢
  exact hall c.toNat hlt h

theorem opens_writeInt (i : Int) : opens (Number.writeInt i) = true := by
  obtain ⟨c, cs, hcs, hc⟩ := Json.exists_writeInt i
  rw [opens, hcs, List.head?_cons, Option.any_some]
  rcases hc with rfl | hc
  · decide
  · exact isOpening_of_isDigit hc

theorem opens_quote (s : String) : opens (quote s) = true := by
  rw [opens, quote, String.toList_ofList, List.cons_append, List.head?_cons, Option.any_some]
  decide

/-- No literal begins like a statement of another form. -/
theorem opens_literal (hexact : v.isExact = true) (h : Emission.literal v = .ok t) :
    opens t = true := by
  cases v with
  | null =>
    rw [Emission.literal] at h
    cases h
    decide
  | bool b =>
    rw [Emission.literal] at h
    cases h
    cases b <;> decide
  | number n =>
    obtain ⟨i, rfl⟩ : ∃ i, n = .int i := by
      have hnode : Json.isExactNode (.number n) = true := hexact
      cases n with
      | int i => exact ⟨i, rfl⟩
      | double x => cases hnode
    rw [Emission.literal, numberLiteral] at h
    split at h
    · cases h
    · rw [← Except.ok.inj h]
      exact opens_writeInt i
  | text s =>
    rw [Emission.literal] at h
    cases h
    exact opens_quote s
  | array items =>
    rw [Emission.literal] at h
    obtain ⟨ts, -, h⟩ := bind_eq_ok.1 h
    cases h
    exact opens_append (opens_append (by decide) _) _
  | object ms =>
    cases ms with
    | nil =>
      rw [Emission.literal] at h
      cases h
      decide
    | cons m ms =>
      rw [Emission.literal] at h
      · obtain ⟨ts, -, h⟩ := bind_eq_ok.1 h
        cases h
        exact opens_append (opens_append (by decide) _) _
      · simp

/-- Exact data are written as a program of one expression, which denotes them. -/
theorem literal_parses (v : Json) (hexact : v.isExact = true) (hkeys : v.hasCleanKeys = true) :
    ∃ t line e, Emission.literal v = .ok t ∧ Parses t [.expression line e none] ∧
      Extraction.literal e = .ok v := by
  obtain ⟨t, ht, -⟩ := writes_literal v hexact hkeys (Nat.le_refl v.depth)
  have hwrites : ∀ d, v.depth ≤ d → Writes d t (Denotes v) := by
    intro d hd
    obtain ⟨t', ht', hw⟩ := writes_literal v hexact hkeys hd
    obtain rfl : t = t' := Except.ok.inj (ht.symm.trans ht')
    exact hw
  obtain ⟨line, e, hparses, he⟩ := parses_of_writes hwrites (opens_literal hexact ht)
  exact ⟨t, line, e, ht, hparses, he⟩

/-- Names and texts that look like code, and an object out of order. -/
def crooked : Json :=
  .object [("it's", .array [.int (-12), .null, .object [], .array [.bool true]]),
    ("id", .text r"a
'}]; // b"), ("class", .object [("b", .int 0), ("a", .text "")])]

theorem literal_parses_crooked : (crooked.isExact = true ∧ crooked.hasCleanKeys = true) ∧
    ∃ t line e, Emission.literal crooked = .ok t ∧ Parses t [.expression line e none] ∧
      Extraction.literal e = .ok crooked :=
  ⟨⟨by decide +kernel, by decide +kernel⟩,
    literal_parses crooked (by decide +kernel) (by decide +kernel)⟩

/-! ## Blocks -/

mutual

/-- Data without fractions have a literal just if they are not too long to be written. -/
theorem exists_literal (v : Json) (h : v.isIntegral = true) :
    ∃ t, Emission.literal v = if v.isWritable then .ok t else .error .longNumber := by
  match v with
  | .null | .bool _ | .text _ => exact ⟨_, rfl⟩
  | .number n =>
    have hnode : Json.isIntegralNode (.number n) = true := h
    cases n with
    | double x => cases hnode
    | int i =>
      refine ⟨Number.writeInt i, ?_⟩
      rw [Emission.literal, numberLiteral, Json.isWritable]
      cases (Number.int i).isLong <;> rfl
  | .array items =>
    rw [Json.isIntegral, Json.everywhere, Bool.and_eq_true] at h
    obtain ⟨ts, hts⟩ := exists_literalItems items h.2
    refine ⟨"[" ++ Text.joinWith ", " ts ++ "]", ?_⟩
    rw [Emission.literal, hts, Json.isWritable]
    cases Json.areWritable items <;> rfl
  | .object [] => exact ⟨_, rfl⟩
  | .object (m :: ms) =>
    rw [Json.isIntegral, Json.everywhere, Bool.and_eq_true] at h
    obtain ⟨ts, hts⟩ := exists_literalMembers (m :: ms) h.2
    refine ⟨r"{ " ++ Text.joinWith ", " ts ++ r" }", ?_⟩
    rw [Emission.literal, hts, Json.isWritable]
    · cases Json.membersWritable (m :: ms) <;> rfl
    · simp

theorem exists_literalItems (vs : List Json)
    (h : Json.everywhereIn Json.isIntegralNode vs = true) :
    ∃ ts, literalItems vs = if Json.areWritable vs then .ok ts else .error .longNumber := by
  match vs with
  | [] => exact ⟨[], rfl⟩
  | v :: vs =>
    rw [Json.everywhereIn, Bool.and_eq_true] at h
    obtain ⟨t, ht⟩ := exists_literal v h.1
    obtain ⟨ts, hts⟩ := exists_literalItems vs h.2
    refine ⟨t :: ts, ?_⟩
    rw [literalItems, ht, hts, Json.areWritable]
    cases v.isWritable <;> cases Json.areWritable vs <;> rfl

theorem exists_literalMembers (ms : Json.Members)
    (h : Json.everywhereUnder Json.isIntegralNode ms = true) :
    ∃ ts, Emission.literalMembers ms =
      if Json.membersWritable ms then .ok ts else .error .longNumber := by
  match ms with
  | [] => exact ⟨[], rfl⟩
  | (k, v) :: ms =>
    rw [Json.everywhereUnder, Bool.and_eq_true] at h
    obtain ⟨t, ht⟩ := exists_literal v h.1
    obtain ⟨ts, hts⟩ := exists_literalMembers ms h.2
    refine ⟨(propertyKey k ++ ": " ++ t) :: ts, ?_⟩
    rw [Emission.literalMembers, ht, hts, Json.membersWritable]
    cases v.isWritable <;> cases Json.membersWritable ms <;> rfl

end

/-- A literal tells that the integers in it are not too long to be written. -/
theorem isExact_of_literal (h : v.isIntegral = true) (ht : Emission.literal v = .ok t) :
    v.isExact = true := by
  refine Json.isExact_of_isWritable h ?_
  obtain ⟨s, hs⟩ := exists_literal v h
  by_contra hlong
  rw [if_neg hlong, ht] at hs
  cases hs

variable {m : Model} {declared : Declared}

/-- What the call of an example tells: its message is one of the model and of the expected kind,
and its data have a literal. -/
structure IsBuilt (m : Model) (expected : Option MessageKind) (x : Example) : Prop where
  message : ∃ kind, m.HasMessage x.ref kind ∧ ∀ wanted ∈ expected, kind = wanted
  data : ∃ t, Emission.literal x.data = .ok t

theorem IsBuilt.any {expected : Option MessageKind} {x : Example} (h : IsBuilt m expected x) :
    IsBuilt m none x := by
  obtain ⟨kind, hkind, -⟩ := h.message
  exact ⟨⟨kind, hkind, by simp⟩, h.data⟩

theorem needs_exampleCall (expected : Option MessageKind) (x : Example) :
    Needs (exampleCall m expected x) (IsBuilt m expected x) := by
  rcases exampleCall_cases m x expected with ⟨-, h⟩ | ⟨n, hn, ⟨_, -, -, h⟩ | ⟨hkind, h⟩⟩ <;> rw [h]
  · exact Needs.throw _
  · exact Needs.throw _
  · have hmessage : m.HasMessage x.ref n.kind := by
      rw [Report.message?_text] at hn
      exact ⟨n, List.mem_of_find?_eq_some hn, by simpa using List.find?_some hn, rfl⟩
    refine Needs.after fun name => Needs.after fun _ => Needs.before ?_
    exact Needs.lift fun t ht => ⟨⟨n.kind, hmessage, hkind⟩, t, ht⟩

theorem needs_givenSteps (xs : List Example) :
    Needs (givenSteps m xs) (∀ x ∈ xs, IsBuilt m none x) := by
  unfold givenSteps
  cases xs with
  | nil => exact (Needs.nothing _).mono fun _ => by simp
  | cons x xs =>
    rw [if_neg (by simp)]
    exact Needs.before (Needs.mapM _ fun y _ => needs_exampleCall none y)

theorem needs_whenSteps (kind : SliceKind) (w : When) :
    Needs (whenSteps m kind w)
      (w.Fits m.HasMessage kind ∧ ∀ x ∈ w.examples, IsBuilt m none x) := by
  cases kind <;> cases w
  case command.one x =>
    refine (Needs.before (needs_exampleCall (some .command) x)).mono fun h => ?_
    obtain ⟨kind, hkind, hwanted⟩ := h.message
    obtain rfl := hwanted .command rfl
    exact ⟨hkind, by simpa [When.examples] using h.any⟩
  case react.many xs =>
    refine (Needs.before (Needs.mapM xs fun x _ => needs_exampleCall (some .event) x)).mono
      fun h => ⟨fun x hx => ?_, fun x hx => (h x hx).any⟩
    obtain ⟨kind, hkind, hwanted⟩ := (h x hx).message
    obtain rfl := hwanted .event rfl
    exact hkind
  case query.nothing => exact (Needs.nothing _).mono fun _ => ⟨trivial, by simp [When.examples]⟩
  all_goals exact Needs.throw _

/-- What the text of an outcome tells: its example can be built, and only commands expect
errors. -/
structure IsTold (m : Model) (kind : SliceKind) (o : Outcome) : Prop where
  shown : ∀ x ∈ o.example?, IsBuilt m none x
  error : ∀ type message, o = .error type message → kind = .command

theorem needs_outcomeText (kind : SliceKind) (o : Outcome) :
    Needs (outcomeText m kind o) (IsTold m kind o) := by
  cases o with
  | message x =>
    refine (needs_exampleCall none x).mono fun h => ⟨?_, by simp⟩
    simpa [Outcome.example?] using h
  | error type message =>
    rw [outcomeText]
    split
    next hkind =>
      exact (Needs.nothing _).mono fun _ => ⟨by simp [Outcome.example?], fun _ _ _ => hkind⟩
    next => exact Needs.throw _

/-- A block that has a chain fits the model and its slice, and all its data have literals. -/
theorem needs_specChain (kind : SliceKind) (s : Spec) :
    Needs (specChain m kind s) (s.Fits m.HasMessage kind ∧
      ∀ x ∈ s.examples, ∃ t, Emission.literal x.data = .ok t) := by
  have hrest : ∀ steps, Needs (specEnd m kind s steps) (∀ o ∈ s.outcomes, IsTold m kind o) :=
    fun steps => Needs.before (Needs.mapM _ fun o _ => needs_outcomeText kind o)
  have hchain : Needs (specChain m kind s) ((∀ x ∈ s.given, IsBuilt m none x) ∧
      (s.when.Fits m.HasMessage kind ∧ ∀ x ∈ s.when.examples, IsBuilt m none x) ∧
      ∀ o ∈ s.outcomes, IsTold m kind o) := by
    unfold specChain
    refine (needs_givenSteps s.given).bind fun given => ?_
    refine (needs_whenSteps kind s.when).bind fun trigger => ?_
    dsimp only
    split
    · exact Needs.after fun _ => Needs.after hrest
    · exact Needs.after hrest
  refine hchain.mono ?_
  rintro ⟨hgiven, ⟨htrigger, hwhen⟩, houtcomes⟩
  have hall : ∀ x ∈ s.examples, IsBuilt m none x := by
    intro x hx
    simp only [Spec.examples, List.mem_append, List.mem_filterMap] at hx
    rcases hx with (hx | hx) | ⟨o, ho, hx⟩
    · exact hgiven x hx
    · exact hwhen x hx
    · exact (houtcomes o ho).shown x hx
  refine ⟨⟨fun x hx => ?_, htrigger, fun type message ho => ?_⟩, fun x hx => (hall x hx).data⟩
  · obtain ⟨kind, hkind, -⟩ := (hall x hx).message
    exact ⟨kind, hkind⟩
  · exact (houtcomes _ ho).error type message rfl

/-- An object without fractions whose names can be told from other code; its integers may be of any
length. -/
structure IsPlainObject (v : Json) : Prop where
  isObject : ∃ ms, v = .object ms
  integral : v.isIntegral = true
  clean : v.hasCleanKeys = true

theorem IsPlainObject.isPayload (h : IsPlainObject v) (ht : Emission.literal v = .ok t) {d : Nat}
    (hd : v.depth ≤ d) : v.IsPayload d :=
  ⟨h.isObject, isExact_of_literal h.integral ht, h.clean, hd⟩

theorem exists_depth (xs : List Example) : ∃ d, ∀ x ∈ xs, x.data.depth ≤ d := by
  induction xs with
  | nil => exact ⟨0, by simp⟩
  | cons x xs ih =>
    obtain ⟨d, hd⟩ := ih
    refine ⟨max x.data.depth d, List.forall_mem_cons.2 ⟨Nat.le_max_left _ _, fun y hy => ?_⟩⟩
    exact Nat.le_trans (hd y hy) (Nat.le_max_right _ _)

/-- What is rendered and written at all large depths is a program of one expression. -/
theorem Renders.parses {x : Emit String} {P : Expr → Prop} {d₀ : Nat}
    (h : ∀ d, d₀ ≤ d → Renders x fun t => Writes d t P ∧ opens t = true) (u : Usage) :
    ∃ t u', x.run u = (.ok t, u') ∧ ∃ line e, Parses t [.expression line e none] ∧ P e := by
  have : Nonempty { d // d₀ ≤ d } := ⟨⟨d₀, Nat.le_refl d₀⟩⟩
  have hall : Renders x fun t => ∀ d : { d // d₀ ≤ d }, Writes d.1 t P ∧ opens t = true :=
    Renders.all fun d => h d.1 d.2
  obtain ⟨t, u', hrun, -, ht⟩ := hall u
  refine ⟨t, u', hrun, parses_of_writes (fun d hd => (ht ⟨d, hd⟩).1) (ht ⟨d₀, ?_⟩).2⟩
  exact Nat.le_refl d₀

/-- A block that is rendered as a chain is read back from the chain, and nothing else is found. -/
theorem specChain_parses (hm : m.NamesMessages) (hd : declared.Covers m) {kind : SliceKind}
    {s : Spec} (hdata : ∀ x ∈ s.examples, IsPlainObject x.data) {u u' : Usage} {c : String}
    (hc : (specChain m kind s).run u = (.ok c, u')) :
    ∃ line e, Parses c [.expression line e none] ∧
      ∀ f : Findings, ∃ g, specOf declared kind e f = .ok (s, g) ∧ f.Grows [] g := by
  obtain ⟨hfits, hliterals⟩ := needs_specChain kind s u c u' hc
  obtain ⟨d₀, hdepth⟩ := exists_depth s.examples
  have hrenders : ∀ d, d₀ + 3 ≤ d → Renders (specChain m kind s) fun t =>
      Writes d t (IsSpec declared kind s) ∧ opens t = true := by
    intro d hle
    obtain ⟨d, rfl⟩ : ∃ k, d = k + 3 := ⟨d - 3, by omega⟩
    have hpayload : ∀ x ∈ s.examples, x.data.IsPayload d := by
      intro x hx
      obtain ⟨t, ht⟩ := hliterals x hx
      exact (hdata x hx).isPayload ht (Nat.le_trans (hdepth x hx) (by omega))
    refine (renders_specChain hm hd hfits hpayload).mono ?_
    rintro t ⟨hwrites, f, hf, x, rfl⟩
    refine ⟨hwrites, opens_append (opens_append ?_ _) _⟩
    simp only [List.mem_cons, List.not_mem_nil, or_false] at hf
    rcases hf with rfl | rfl <;> decide +kernel
  obtain ⟨t, v, hrun, line, e, hparses, he⟩ := Renders.parses hrenders u
  rw [hc] at hrun
  cases hrun
  exact ⟨line, e, hparses, he []⟩

/-! A seat is booked, or there is none left. -/

namespace Booking

def book : Message := { name := "Book", kind := .command, version := 1 }

def booked : Message := { name := "Booked", kind := .event, version := 1 }

def desk : Integration := { name := "Desk", source := "./desk" }

def mail : Integration := { name := "Mail", source := "./mail" }

def model : Model := { messages := [book, booked], integrations := [desk, mail] }

def block : Spec :=
  { given := [⟨"Booked", .object []⟩]
    when := .one ⟨"Book", .object [("seat", .int (-3))]⟩
    outcomes := [.message ⟨"Booked", .object [("on's", .array [.null])]⟩,
      .error .notFound (some "none left")] }

def chain : String :=
  "given([Events.Booked({})]).when(Commands.Book({ seat: -3 }))" ++
    r".then([Events.Booked({ 'on\'s': [null] }), " ++
    r"{ errorType: 'NotFoundError', message: 'none left' }])"

theorem run_chain : ∃ u', (specChain model .command block).run {} = (.ok chain, u') :=
  run_eq_ok (by decide +kernel)

theorem namesMessages_model : model.NamesMessages := ⟨by decide, by decide⟩

theorem isPlainObject_block : ∀ x ∈ block.examples, IsPlainObject x.data := by
  have hexamples : block.examples = [⟨"Booked", .object []⟩,
      ⟨"Book", .object [("seat", .int (-3))]⟩,
      ⟨"Booked", .object [("on's", .array [.null])]⟩] := rfl
  rw [hexamples]
  simp only [List.forall_mem_cons]
  refine ⟨?_, ?_, ?_, by simp⟩ <;>
    exact ⟨⟨_, rfl⟩, by decide, by decide⟩

end Booking

theorem specChain_parses_booking :
    ∃ u', (specChain Booking.model .command Booking.block).run {} = (.ok Booking.chain, u') ∧
      ∃ line e, Parses Booking.chain [.expression line e none] ∧
        ∀ f : Findings, ∃ g, specOf { messages := Booking.model.messages } .command e f =
          .ok (Booking.block, g) ∧ f.Grows [] g := by
  obtain ⟨u', hrun⟩ := Booking.run_chain
  exact ⟨u', hrun,
    specChain_parses Booking.namesMessages_model ⟨rfl, rfl⟩ Booking.isPlainObject_block hrun⟩

/-! ## Entries -/

/-- The name of an integration of the model that can stand in code as a variable. -/
def IsVariable (m : Model) (name : String) : Prop :=
  m.HasIntegration name ∧ Token.isFullName name = true ∧ name ∉ Program.literalNames

/-- An entry whose query has no fractions, and no name that looks like other code; integers may be
of any length, and a state is looked up from a source. -/
def IsPlainEntry : Entry → Prop
  | .source _ (.database _ query) _ => query.isIntegral = true ∧ query.hasCleanKeys = true
  | .source .. => True
  | .sink _ destination none _ => destination.Proper
  | .sink _ destination (some state) _ =>
    destination.Proper ∧ state.isSource = true ∧ IsPlainEntry state

theorem IsPlainEntry.exists_proper {x : Entry} (h : IsPlainEntry x)
    (hw : ∀ q ∈ x.queries, q.isWritable = true) : ∃ d, x.Proper d := by
  fun_induction IsPlainEntry x with
  | case1 _ name query _ =>
    exact ⟨query.depth, Json.isExact_of_isWritable h.1 (hw query List.mem_cons_self), h.2,
      Nat.le_refl _⟩
  | case2 _ origin _ hother =>
    cases origin with
    | database name query => exact absurd rfl (hother name query)
    | _ => exact ⟨0, trivial⟩
  | case3 => exact ⟨0, h⟩
  | case4 _ destination state _ ih =>
    obtain ⟨d, hd⟩ := ih h.2.2 hw
    exact ⟨d + 1, h.1, h.2.1, hd⟩

/-- Wherever the step starts, it fails with the fault. -/
def Refuses (x : Emit α) (fault : Fault) : Prop :=
  ∀ u : Usage, ∃ u', x.run u = (.error fault, u')

theorem Refuses.lift {y : Except Fault α} (h : y = .error fault) :
    Refuses (liftM y : Emit α) fault := by
  subst h
  exact fun u => ⟨u, rfl⟩

theorem Refuses.bind {β : Type} {x : Emit α} (h : Refuses x fault) (k : α → Emit β) :
    Refuses (x >>= k) fault := by
  intro u
  obtain ⟨u', hrun⟩ := h u
  exact ⟨u', by rw [Accepts.run_bind, hrun]⟩

/-- A step that succeeds leaves the refusal to what follows it. -/
theorem Refuses.after {β : Type} {x : Emit α} {k : α → Emit β} {P : α → Prop} (hx : Renders x P)
    (hk : ∀ a, P a → Refuses (k a) fault) : Refuses (x >>= k) fault := by
  intro u
  obtain ⟨a, u', hrun, -, ha⟩ := hx u
  obtain ⟨u'', hrun'⟩ := hk a ha u'
  exact ⟨u'', (run_bind hrun).trans hrun'⟩

theorem originCall_of_long {name : String} {query : Json} (h : query.isIntegral = true)
    (hlong : query.isWritable = false) :
    originCall m (.database name query) = .error .longNumber := by
  obtain ⟨t, ht⟩ := exists_literal query h
  rw [hlong, if_neg Bool.false_ne_true] at ht
  have hquery : queryArguments query = .error .longNumber := by
    rw [queryArguments, ht]
    · rfl
    · rintro rfl
      cases hlong
  rw [originCall, quoted_text, hquery]
  rfl

/-- An entry with a query that is too long to be written is refused. -/
theorem entryChain_of_long {names : List String} {x : Entry} (hlinked : x.Linked (m.Offers names))
    (hplain : IsPlainEntry x) (hlong : ∃ q ∈ x.queries, q.isWritable = false) :
    Refuses (entryChain m x) .longNumber := by
  have huse : ∀ root ∈ dslFunctions, Renders (useFunction root) fun _ => True := fun root hroot =>
    Renders.useFunction hroot (Renders.pure trivial)
  have htarget : ∀ root (target : Target), Renders (liftM (targetCall root target) : Emit String)
      fun _ => True := by
    intro root target
    obtain ⟨t, ht⟩ := targetCall_text root target
    exact Renders.lift ht trivial
  obtain ⟨q, hq, hlong⟩ := hlong
  fun_induction entryChain m x with
  | case1 target origin instructions =>
    obtain ⟨name, rfl⟩ : ∃ name, origin = .database name q := by
      cases origin with
      | database name query => exact ⟨name, by rw [List.mem_singleton.1 hq]⟩
      | _ => cases hq
    refine Refuses.after (huse _ (by decide)) fun _ _ => ?_
    refine Refuses.after (htarget _ target) fun _ _ => ?_
    exact Refuses.bind (Refuses.lift (originCall_of_long hplain.1 hlong)) _
  | case2 => cases hq
  | case3 target destination state instructions ih =>
    obtain ⟨call, hcall, -⟩ := writes_destination hlinked.1 hplain.1 0
    refine Refuses.after (huse _ (by decide)) fun _ _ => ?_
    refine Refuses.after (htarget _ target) fun _ _ => ?_
    refine Refuses.after (Renders.lift (P := fun _ => True) hcall trivial) fun _ _ => ?_
    exact Refuses.bind (ih hlinked.2 hplain.2.2 hq) _

/-- An entry is rendered as a chain and read back from it, and the integrations that are then
referred to are those of the entry. This is so unless the query is too long to be written, and then
the entry has no chain. -/
theorem entryChain_parses {x : Entry} (hlinked : x.Linked (IsVariable m))
    (hplain : IsPlainEntry x) (u : Usage) (n : Nat) :
    ((∀ q ∈ x.queries, q.isWritable = true) →
      ∃ t u', (entryChain m x).run u = (.ok t, u') ∧
        ∃ line e, Parses t [.expression line e none] ∧
          ∀ f : Findings, ∃ g, entryOf (n + 2) e f = .ok (x, g) ∧
            f.Grows x.systems g ∧
            ∀ name, name ∈ g.systems ↔ name ∈ f.systems ∨ name ∈ x.systems) ∧
    ((∃ q ∈ x.queries, q.isWritable = false) →
      ∃ u', (entryChain m x).run u = (.error .longNumber, u')) := by
  have hoffers : x.Linked (m.Offers x.systems) := by
    refine Entry.Linked.mono ?_ x (Entry.Linked.and x (fun name hname => hname) hlinked)
    rintro name ⟨hknown, hlisted, hfull, hfree⟩
    exact ⟨hlisted, hfull, hfree, hknown⟩
  refine ⟨fun hw => ?_, fun hlong => entryChain_of_long hoffers hplain hlong u⟩
  obtain ⟨d, hproper⟩ := hplain.exists_proper hw
  have hrenders : ∀ k, d + 2 ≤ k → Renders (entryChain m x) fun t =>
      Writes k t (IsEntry x.systems (n + 2) x) ∧ opens t = true := by
    intro k hle
    obtain ⟨k, rfl⟩ : ∃ i, k = i + 2 := ⟨k - 2, by omega⟩
    have hdeep : x.Proper (k + 1) := hproper.mono (by omega)
    refine (renders_entryChain hoffers hdeep n).mono ?_
    rintro t ⟨hwrites, root, hroot, rest, rfl⟩
    refine ⟨hwrites, opens_append (opens_append ?_ _) _⟩
    simp only [List.mem_cons, List.not_mem_nil, or_false] at hroot
    rcases hroot with rfl | rfl <;> decide +kernel
  obtain ⟨t, u', hrun, line, e, hparses, he⟩ := Renders.parses hrenders u
  refine ⟨t, u', hrun, line, e, hparses, fun f => ?_⟩
  obtain ⟨g, hg, hgrows⟩ := he f
  have hyields : Yields {} (entryOf (n + 2) e) _ :=
    entryOf_yields (n + 2) e
  obtain ⟨hextends, hfound⟩ := hyields f x g hg
  refine ⟨g, hg, hgrows, fun name => ⟨hgrows.systems name, ?_⟩⟩
  rintro (hname | hname)
  · exact hextends.systems name hname
  · exact Entry.Linked.systems x hfound name hname

namespace Booking

def entry : Entry :=
  .sink ⟨.event, "Booked"⟩ (.integration ["Mail", "Desk", "Mail"] (some ⟨"it's\n", "reaction"⟩))
    (some (.source ⟨.state, "Seats"⟩
      (.database "seats" (.object [("free", .array [.int 1, .bool false])])) (some "")))
    (some "soon")

theorem linked_entry : entry.Linked (IsVariable model) := by
  have hdesk : IsVariable model "Desk" :=
    ⟨⟨desk, by simp [model], rfl⟩, by decide, by decide⟩
  have hmail : IsVariable model "Mail" :=
    ⟨⟨mail, by simp [model], rfl⟩, by decide, by decide⟩
  refine ⟨⟨by simp, ?_⟩, trivial⟩
  simp only [List.forall_mem_cons]
  exact ⟨hmail, hdesk, hmail, by simp⟩

theorem isPlain_entry : IsPlainEntry entry :=
  ⟨by simp [Destination.Proper, integrationTypes], rfl, by decide, by decide⟩

theorem writable_entry : ∀ q ∈ entry.queries, q.isWritable = true := by decide +kernel

/-- An entry whose query is the smallest number that is too long to be written. -/
def census : Entry :=
  .source ⟨.state, "Seats"⟩ (.database "seats" (.int Number.digitLimit)) none

theorem isPlain_census : IsPlainEntry census := ⟨rfl, rfl⟩

end Booking

theorem entryChain_parses_booking :
    (Booking.entry.Linked (IsVariable Booking.model) ∧ IsPlainEntry Booking.entry ∧
      ∀ q ∈ Booking.entry.queries, q.isWritable = true) ∧
    ∃ t u', (entryChain Booking.model Booking.entry).run {} = (.ok t, u') ∧
      ∃ line e, Parses t [.expression line e none] ∧
        ∀ f : Findings, ∃ g, entryOf 2 e f = .ok (Booking.entry, g) ∧
          f.Grows Booking.entry.systems g ∧
          ∀ name, name ∈ g.systems ↔ name ∈ f.systems ∨ name ∈ Booking.entry.systems :=
  ⟨⟨Booking.linked_entry, Booking.isPlain_entry, Booking.writable_entry⟩,
    (entryChain_parses Booking.linked_entry Booking.isPlain_entry {} 0).1 Booking.writable_entry⟩

/-- A number as a query, and no chain for it. -/
theorem entryChain_census :
    (Booking.census.Linked (IsVariable Booking.model) ∧ IsPlainEntry Booking.census) ∧
    ∃ u', (entryChain Booking.model Booking.census).run {} = (.error .longNumber, u') := by
  have hlinked : ∀ P, Booking.census.Linked P := fun _ => trivial
  refine ⟨⟨hlinked _, Booking.isPlain_census⟩, ?_⟩
  refine entryChain_of_long (hlinked (Booking.model.Offers [])) Booking.isPlain_census ?_ {}
  exact ⟨.int Number.digitLimit, List.mem_singleton.2 rfl, by decide +kernel⟩

end EventFlow.Emission
