import EventFlow.Proofs.Emission.Spec

/-! Pipeline entries survive rendering and reading.

    Renders (entryChain m x) fun t => Writes (d + 1) t fun e => Answers (entryOf (n + 2) e) x

The methods of a chain say by their names alone what their arguments mean, and the number of
arguments tells whether an optional part is there. Names of integrations stand in the chain as
variables; they are what a program refers to, and are found again as such. -/

namespace EventFlow

open Text

/-! ## Entries that can be written -/

/-- The kind that an integration is sent a message as is one of the language. -/
def Destination.Proper : Destination → Prop
  | .integration _ (some message) => message.type ∈ Extraction.integrationTypes
  | _ => True

/-- The query of a database can be given as a literal nested at most `d` deep. -/
def Origin.Proper (d : Nat) : Origin → Prop
  | .database _ query => query.isExact = true ∧ query.hasCleanKeys = true ∧ query.depth ≤ d
  | _ => True

/-- States are looked up from sources. -/
def Entry.Proper (d : Nat) : Entry → Prop
  | .source _ origin _ => origin.Proper d
  | .sink _ destination none _ => destination.Proper
  | .sink _ destination (some state) _ =>
    destination.Proper ∧ state.isSource = true ∧ state.Proper (d - 1)

theorem Entry.Proper.mono {x : Entry} {d d' : Nat} (h : x.Proper d) (hle : d ≤ d') :
    x.Proper d' := by
  fun_induction Entry.Proper d x generalizing d' with
  | case1 d _ origin _ =>
    cases origin with
    | database name query => exact ⟨h.1, h.2.1, Nat.le_trans h.2.2 hle⟩
    | _ => trivial
  | case2 => exact h
  | case3 d _ destination state _ ih => exact ⟨h.1, h.2.1, ih h.2.2 (by omega)⟩

/-- The names of the integrations can stand in code as variables. -/
def Model.NamesIntegrations (m : Model) : Prop :=
  ∀ i ∈ m.integrations, Token.isFullName i.name = true ∧ i.name ∉ Program.literalNames

/-- The model has an integration of that name, which can stand in code as a variable and is one of
the given names. -/
structure Model.Offers (m : Model) (names : List String) (name : String) : Prop where
  listed : m.HasIntegration name
  full : Token.isFullName name = true
  free : name ∉ Program.literalNames
  known : name ∈ names

theorem Model.NamesIntegrations.offers {m : Model} (hm : m.NamesIntegrations) {names : List String}
    (hnames : ∀ name, m.HasIntegration name → name ∈ names) (name : String)
    (h : m.HasIntegration name) : m.Offers names name := by
  have hknown := hnames name h
  obtain ⟨i, hi, rfl⟩ := id h
  exact ⟨h, (hm i hi).1, (hm i hi).2, hknown⟩

theorem Model.integration?_of_hasIntegration {m : Model} {name : String}
    (h : m.HasIntegration name) : (m.integration? name).isNone = false := by
  obtain ⟨i, hi, rfl⟩ := h
  cases hn : m.integration? i.name with
  | some j => rfl
  | none =>
    rw [Model.integration?, List.find?_eq_none] at hn
    exact absurd (hn i hi) (by simp [Leaf.isMatch, Json.isMatch, Json.same_text, Json.isNaN])

namespace Emission

open Extraction

variable {m : Model} {d : Nat} {names systems : List String} {method : String}

/-! ## Arguments -/

/-- A variable of that name. -/
def IsName (name : String) (e : Expr) : Prop := ∃ line, e = .identifier line name

/-- A text. -/
def IsText (s : String) (e : Expr) : Prop := ∃ line, e = .text line s

theorem IsText.textOf {s : String} {e : Expr} (h : IsText s e) (what : String) :
    textOf what e = .ok s := by
  obtain ⟨line, rfl⟩ := h
  rfl

theorem systemNames_eq (h : Systems.Linked (m.Offers names) systems) :
    systemNames m systems = .ok systems := by
  have hmap : ∀ l : List String, (∀ name ∈ l, m.Offers names name) →
      (l.mapM fun name => if (m.integration? name).isNone then
        (.error (.undeclaredIntegration (Leaf.value name).display) : Except Fault String)
        else identifier .integrationName name) = .ok l := by
    intro l hl
    induction l with
    | nil => rfl
    | cons name l ih =>
      have hname := hl name List.mem_cons_self
      rw [List.mapM_cons, Model.integration?_of_hasIntegration hname.listed, if_neg (by decide),
        identifier_of_isFullName _ hname.full, ih fun x hx => hl x (List.mem_cons_of_mem _ hx)]
      rfl
  unfold systemNames
  rw [if_neg (by simpa using h.1)]
  exact hmap systems h.2

theorem writes_systems (h : ∀ name ∈ systems, m.Offers names name) :
    List.Forall₂ (fun t name => Writes d t (IsName name)) systems systems := by
  rw [List.forall₂_same]
  exact fun name hname => Writes.name d (h name hname).full (h name hname).free

theorem leadingNames_append {es others : List Expr}
    (h : List.Forall₂ (fun e name => IsName name e) es systems)
    (hothers : leadingNames others = ([], others)) :
    leadingNames (es ++ others) = (systems, others) := by
  induction h with
  | nil => exact hothers
  | cons he _ ih =>
    obtain ⟨line, rfl⟩ := he
    rw [List.cons_append, leadingNames, ih]

theorem answers_noteSystems (h : ∀ s ∈ systems, s ∈ names) :
    Answers names (noteSystems systems) () := by
  intro f
  refine ⟨{ f with systems := systems.foldl mention f.systems }, rfl, rfl, rfl, rfl, ?_⟩
  intro n hn
  exact ((mem_foldl_mention _ _ _).1 hn).imp_right (h n)

theorem answers_systemsOf (hne : systems ≠ []) (hnames : ∀ s ∈ systems, s ∈ names) {link : Link}
    {others : List Expr} (h : leadingNames link.arguments = (systems, others)) :
    Answers names (systemsOf link) (systems, others) := by
  unfold systemsOf
  rw [h]
  cases systems with
  | nil => exact absurd rfl hne
  | cons s systems => exact Answers.bind (answers_noteSystems hnames) (Answers.pure _)

/-! ## Single methods -/

/-- A call of one method, each argument of which has a property of its own. -/
theorem WritesLinks.arguments {ts : List String} {Qs : List (Expr → Prop)}
    (h : List.Forall₂ (Writes d) ts Qs) (hmethod : Token.isFullName method = true) :
    WritesLinks (d + 1) (methodCall method ts) fun links =>
      ∃ line es, links = [⟨line, method, es, none⟩] ∧ List.Forall₂ (fun e Q => Q e) es Qs :=
  WritesLinks.method (P := fun Q => Q) h hmethod

/-- A method that is called with two arguments. -/
theorem WritesLinks.two {a b : String} {P Q : Expr → Prop} (ha : Writes d a P) (hb : Writes d b Q)
    (hmethod : Token.isFullName method = true) :
    WritesLinks (d + 1) (methodCall method [a, b]) fun links =>
      ∃ line e f, links = [⟨line, method, [e, f], none⟩] ∧ P e ∧ Q f := by
  refine (WritesLinks.arguments (.cons ha (.cons hb .nil)) hmethod).mono ?_
  rintro links ⟨line, es, rfl, hes⟩
  rcases hes with _ | ⟨he, _ | ⟨hf, _ | _⟩⟩
  exact ⟨line, _, _, rfl, he, hf⟩

/-- A method that is called with one text. -/
theorem WritesLinks.onlyText (d : Nat) (hmethod : Token.isFullName method = true) (s : String) :
    WritesLinks (d + 1) (methodCall method [quote s]) fun links =>
      ∃ link, links = [link] ∧ link.method = method ∧ onlyText link = .ok s := by
  refine (WritesLinks.one (Writes.text d s) hmethod).mono ?_
  rintro links ⟨line, e, rfl, he⟩
  exact ⟨_, rfl, rfl, IsText.textOf he _⟩

/-- A method that is read as the destination. -/
def IsDestination (names : List String) (x : Destination) (link : Link) : Prop :=
  startsWith "to" link.method.toList = true ∧ Answers names (destinationOf link) x

theorem messageArguments_eq (message : Option IntegrationMessage) :
    messageArguments message =
      .ok ((message.map fun x => [quote x.name, quote x.type]).getD []) := by
  cases message with
  | none => rfl
  | some x =>
    simp only [messageArguments, quoted_text]
    rfl

theorem integrationMessage_of_texts (line : Nat) {message : IntegrationMessage}
    (h : message.type ∈ integrationTypes) {a b : Expr} (ha : IsText message.name a)
    (hb : IsText message.type b) : integrationMessage line [a, b] = .ok (some message) := by
  have hcontains : integrationTypes.contains message.type = true := List.contains_iff_mem.2 h
  simp only [integrationMessage, ha.textOf, hb.textOf, bind, Except.bind, hcontains, if_true]
  rfl

/-- A method that is called with integrations and other arguments after them. -/
theorem WritesLinks.linked (hlinked : Systems.Linked (m.Offers names) systems) {ts : List String}
    {Qs : List (Expr → Prop)} (h : List.Forall₂ (Writes d) ts Qs)
    (hmethod : Token.isFullName method = true) :
    WritesLinks (d + 1) (methodCall method (systems ++ ts)) fun links =>
      ∃ line es others, links = [⟨line, method, es ++ others, none⟩] ∧
        List.Forall₂ (fun e name => IsName name e) es systems ∧
        List.Forall₂ (fun e Q => Q e) others Qs := by
  have hsystems : List.Forall₂ (Writes d) systems (systems.map IsName) :=
    List.forall₂_map_right_iff.2 (writes_systems hlinked.2)
  refine (WritesLinks.arguments (List.rel_append hsystems h) hmethod).mono ?_
  rintro links ⟨line, es, rfl, hes⟩
  refine ⟨line, es.take (systems.map IsName).length, es.drop (systems.map IsName).length, ?_,
    List.forall₂_map_right_iff.1 (List.forall₂_take_append _ _ _ hes),
    List.forall₂_drop_append _ _ _ hes⟩
  rw [List.take_append_drop]

theorem writes_destination {x : Destination} (hlinked : x.Linked (m.Offers names))
    (hproper : x.Proper) (d : Nat) :
    ∃ t, destinationCall m x = .ok t ∧ WritesLinks (d + 1) t fun links =>
      ∃ link, links = [link] ∧ IsDestination names x link := by
  cases x with
  | stream s | database s | topic s =>
    refine ⟨_, by rw [destinationCall, quoted_text]; rfl,
      (WritesLinks.onlyText d (by decide) s).mono ?_⟩
    rintro links ⟨link, rfl, hmethod, htext⟩
    refine ⟨link, rfl, by rw [hmethod]; decide, ?_⟩
    simp only [destinationOf, hmethod]
    exact Answers.bind (Answers.lift htext) (Answers.pure _)
  | integration systems message =>
    have hin : ∀ s ∈ systems, s ∈ names := fun s hs => (hlinked.2 s hs).known
    have hcall : destinationCall m (.integration systems message) =
        .ok (methodCall "toIntegration" (systems ++
          (message.map fun x => [quote x.name, quote x.type]).getD [])) := by
      simp only [destinationCall, systemNames_eq hlinked, messageArguments_eq]
      rfl
    refine ⟨_, hcall, ?_⟩
    cases message with
    | none =>
      refine (WritesLinks.linked hlinked .nil (by decide)).mono ?_
      rintro links ⟨line, es, others, rfl, hes, hothers⟩
      cases hothers
      refine ⟨_, rfl, (by decide : startsWith "to" "toIntegration".toList = true), ?_⟩
      exact Answers.bind (answers_systemsOf hlinked.1 hin (leadingNames_append hes rfl))
        (Answers.bind (Answers.lift rfl) (Answers.pure _))
    | some x =>
      have htexts : List.Forall₂ (Writes d) [quote x.name, quote x.type]
          [IsText x.name, IsText x.type] :=
        .cons (Writes.text d _) (.cons (Writes.text d _) .nil)
      refine (WritesLinks.linked hlinked htexts (by decide)).mono ?_
      rintro links ⟨line, es, others, rfl, hes, hothers⟩
      rcases hothers with _ | ⟨ha, _ | ⟨hb, _ | _⟩⟩
      have hmessage := integrationMessage_of_texts line hproper ha hb
      obtain ⟨l, rfl⟩ := ha
      refine ⟨_, rfl, (by decide : startsWith "to" "toIntegration".toList = true), ?_⟩
      exact Answers.bind (answers_systemsOf hlinked.1 hin (leadingNames_append hes rfl))
        (Answers.bind (Answers.lift hmessage) (Answers.pure _))

/-- A method that is read as the origin. -/
def IsOrigin (names : List String) (x : Origin) (link : Link) : Prop :=
  startsWith "from" link.method.toList = true ∧ Answers names (originOf link) x

theorem writes_origin {x : Origin} (hlinked : x.Linked (m.Offers names))
    (hproper : x.Proper d) :
    ∃ t, originCall m x = .ok t ∧ WritesLinks (d + 1) t fun links =>
      ∃ link, links = [link] ∧ IsOrigin names x link := by
  cases x with
  | projection name idField =>
    refine ⟨_, by rw [originCall, quoted_text, quoted_text]; rfl,
      (WritesLinks.two (Writes.text d name) (Writes.text d idField) (by decide)).mono ?_⟩
    rintro links ⟨line, a, b, rfl, ha, hb⟩
    refine ⟨_, rfl, (by decide : startsWith "from" "fromProjection".toList = true), ?_⟩
    exact Answers.bind (Answers.lift (IsText.textOf ha _))
      (Answers.bind (Answers.lift (IsText.textOf hb _)) (Answers.pure _))
  | readModel name =>
    refine ⟨_, by rw [originCall, quoted_text]; rfl,
      (WritesLinks.onlyText d (by decide) name).mono ?_⟩
    rintro links ⟨link, rfl, hmethod, htext⟩
    refine ⟨link, rfl, by rw [hmethod]; decide, ?_⟩
    simp only [originOf, hmethod]
    exact Answers.bind (Answers.lift htext) (Answers.pure _)
  | database collection query =>
    have hcollection := Writes.text d collection
    have hfrom : startsWith "from" "fromDatabase".toList = true := by decide
    by_cases hnull : query = .null
    · subst hnull
      refine ⟨methodCall "fromDatabase" [quote collection], by
        rw [originCall, quoted_text, queryArguments]; rfl,
        (WritesLinks.one hcollection (by decide)).mono ?_⟩
      rintro links ⟨line, a, rfl, ha⟩
      exact ⟨_, rfl, hfrom, Answers.bind (Answers.lift (IsText.textOf ha _)) (Answers.pure _)⟩
    · obtain ⟨t, ht, hquery⟩ := writes_literal query hproper.1 hproper.2.1 hproper.2.2
      have hargs : queryArguments query = .ok [t] := by
        rw [queryArguments]
        · rw [ht]; rfl
        · exact fun h => hnull h
      refine ⟨methodCall "fromDatabase" [quote collection, t], by
        rw [originCall, quoted_text, hargs]; rfl,
        (WritesLinks.two hcollection hquery (by decide)).mono ?_⟩
      rintro links ⟨line, a, b, rfl, ha, hb⟩
      exact ⟨_, rfl, hfrom, Answers.bind (Answers.lift hb)
        (Answers.bind (Answers.lift (IsText.textOf ha _)) (Answers.pure _))⟩
  | api endpoint method =>
    have hendpoint := Writes.text d endpoint
    have hfrom : startsWith "from" "fromApi".toList = true := by decide
    cases method with
    | none =>
      refine ⟨methodCall "fromApi" [quote endpoint], by rw [originCall, quoted_text]; rfl,
        (WritesLinks.one hendpoint (by decide)).mono ?_⟩
      rintro links ⟨line, a, rfl, ha⟩
      exact ⟨_, rfl, hfrom, Answers.bind (Answers.lift (IsText.textOf ha _)) (Answers.pure _)⟩
    | some verb =>
      refine ⟨methodCall "fromApi" [quote endpoint, quote verb], by
        rw [originCall, quoted_text, quotedOption, quoted_text]; rfl,
        (WritesLinks.two hendpoint (Writes.text d verb) (by decide)).mono ?_⟩
      rintro links ⟨line, a, b, rfl, ha, hb⟩
      exact ⟨_, rfl, hfrom, Answers.bind (Answers.lift (IsText.textOf hb _))
        (Answers.bind (Answers.lift (IsText.textOf ha _)) (Answers.pure _))⟩
  | integration systems =>
    have hin : ∀ s ∈ systems, s ∈ names := fun s hs => (hlinked.2 s hs).known
    have hcall : originCall m (.integration systems) =
        .ok (methodCall "fromIntegration" (systems ++ [])) := by
      rw [List.append_nil, originCall, systemNames_eq hlinked]
      rfl
    refine ⟨_, hcall, (WritesLinks.linked hlinked .nil (by decide)).mono ?_⟩
    rintro links ⟨line, es, others, rfl, hes, hothers⟩
    cases hothers
    refine ⟨_, rfl, (by decide : startsWith "from" "fromIntegration".toList = true), ?_⟩
    exact Answers.bind (answers_systemsOf hlinked.1 hin (leadingNames_append hes rfl))
      (Answers.pure _)

/-! ## Chains -/

/-- The instructions of an entry, if it has any. -/
def AreInstructions (x : Option String) (links : List Link) : Prop :=
  match x with
  | none => links = []
  | some s =>
    ∃ link, links = [link] ∧ link.method = "additionalInstructions" ∧ onlyText link = .ok s

theorem writes_instructions (d : Nat) (x : Option String) :
    ∃ t, instructionsCall x = .ok t ∧ WritesLinks (d + 1) t (AreInstructions x) := by
  cases x with
  | none => exact ⟨"", rfl, WritesLinks.empty (d + 1)⟩
  | some s =>
    refine ⟨methodCall "additionalInstructions" [quote s], ?_,
      WritesLinks.onlyText d (by decide) s⟩
    rw [instructionsCall, quotedOption, quoted_text]
    rfl

/-- A method that names the message of an entry. -/
def IsTarget (root : String) (x : Target) (link : Link) : Prop := targetOf root link = .ok x

theorem ofWord?_kind (kind : MessageKind) : MessageKind.ofWord? kind.word = some kind := by
  cases kind <;> decide

theorem writes_target (d : Nat) (root : String) (x : Target) :
    targetCall root x = .ok (root ++ "()" ++ methodCall x.kind.word [quote x.name]) ∧
      WritesLinks (d + 1) (methodCall x.kind.word [quote x.name]) fun links =>
        ∃ link, links = [link] ∧ IsTarget root x link := by
  refine ⟨by rw [targetCall, quoted_text]; rfl, (WritesLinks.onlyText d ?_ x.name).mono ?_⟩
  · cases x.kind <;> decide
  · rintro links ⟨link, rfl, hmethod, htext⟩
    refine ⟨link, rfl, ?_⟩
    simp only [IsTarget, targetOf, hmethod, ofWord?_kind, htext]
    rfl

/-- The text begins with a call of one of the two functions. -/
def IsRooted (t : String) : Prop := ∃ root ∈ ["sink", "source"], ∃ x, t = root ++ "(" ++ x

theorem isRooted_append {root : String} (h : root ∈ ["sink", "source"]) (links : String) :
    IsRooted (root ++ "()" ++ links) := by
  refine ⟨root, h, ")" ++ links, ?_⟩
  have hparens : ("()" : String) = "(" ++ ")" := rfl
  rw [hparens]
  simp only [String.append_assoc]

/-- A chain that is read as the entry. -/
def IsEntry (names : List String) (depth : Nat) (x : Entry) (e : Expr) : Prop :=
  Answers names (entryOf depth e) x

/-- A call without arguments, and the methods on its result. -/
theorem Writes.rooted {d : Nat} {root links : String} {Q : List Link → Prop}
    (hroot : Token.isFullName root = true) (hcallable : Program.isCallable root = true)
    (h : WritesLinks (d + 1) links Q) :
    Writes (d + 1) (root ++ "()" ++ links) fun e =>
      ∃ line line' chain, e.chain = (.call line (.identifier line' root) [] none, chain) ∧
        Q chain := by
  have hchain := Writes.chain (P := fun (_ : Unit) _ => True) .nil hroot hcallable h
  have htext : root ++ "(" ++ joinWith ", " [] ++ ")" ++ links = root ++ "()" ++ links := by
    have hparens : ("()" : String) = "(" ++ ("" ++ ")") := rfl
    rw [hparens, joinWith]
    simp only [String.append_assoc]
  rw [htext] at hchain
  refine hchain.mono ?_
  rintro e ⟨line, line', es, chain, he, hes, hQ⟩
  cases hes
  exact ⟨line, line', chain, he, hQ⟩

theorem ne_instructions_of_startsWith {start method : String}
    (h : startsWith start method.toList = true)
    (hstart : startsWith start "additionalInstructions".toList = false) :
    method ≠ "additionalInstructions" := by
  rintro rfl
  rw [hstart] at h
  cases h

/-- The instructions are added to what the other methods have given. -/
theorem answers_instructions {α : Type} (draft : Option String → α) {x : Option String}
    {links : List Link} (h : AreInstructions x links) {add : α → Link → Walk α}
    (hadd : ∀ link s, link.method = "additionalInstructions" → onlyText link = .ok s →
      Answers names (add (draft none) link) (draft (some s))) :
    Answers names (links.foldlM add (draft none)) (draft x) := by
  cases x with
  | none =>
    obtain rfl : links = [] := h
    exact Answers.pure _
  | some s =>
    obtain ⟨link, rfl, hmethod, htext⟩ := h
    rw [List.foldlM_cons]
    exact Answers.bind (hadd link s hmethod htext) (Answers.pure _)

/-! ## Entries -/

theorem renders_source (target : Target) {origin : Origin} (instructions : Option String)
    (hlinked : origin.Linked (m.Offers names)) (hproper : origin.Proper d) (depth : Nat) :
    Renders (entryChain m (.source target origin instructions)) fun t =>
      Writes (d + 1) t (IsEntry names (depth + 1) (.source target origin instructions)) ∧
        IsRooted t := by
  obtain ⟨htarget, hlinks⟩ := writes_target d "source" target
  obtain ⟨call, hcall, horigin⟩ := writes_origin hlinked hproper
  obtain ⟨more, hmore, hinstructions⟩ := writes_instructions d instructions
  rw [entryChain]
  refine Renders.useFunction (by decide) ?_
  refine Renders.lift_bind htarget ?_
  refine Renders.lift_bind hcall ?_
  refine Renders.lift_bind hmore ?_
  rw [String.append_assoc, String.append_assoc]
  refine Renders.pure ⟨?_, isRooted_append (by simp) _⟩
  refine (Writes.rooted (by decide) (by decide)
    (hlinks.append (horigin.append hinstructions))).mono ?_
  rintro e ⟨line, line', chain, hchain, _, _, rfl, ⟨first, rfl, hfirst⟩, _, rest, rfl,
    ⟨link, rfl, hfrom, hanswers⟩, hrest⟩
  have hother := ne_instructions_of_startsWith hfrom (by decide)
  simp only [IsEntry, entryOf, hchain, List.cons_append, List.nil_append, Expr.calleeName?]
  refine Answers.bind (Answers.lift hfirst) ?_
  refine Answers.bind (a := { origin := some origin, instructions := instructions }) ?_
    (Answers.pure _)
  rw [List.foldlM_cons]
  refine Answers.bind (a := { origin := some origin }) ?_ ?_
  · rw [SourceDraft.add, if_neg hother, if_pos hfrom]
    exact Answers.bind hanswers (Answers.pure _)
  · refine answers_instructions (SourceDraft.mk (some origin)) hrest ?_
    intro link s hmethod htext
    rw [SourceDraft.add, if_pos hmethod]
    exact Answers.bind (Answers.lift htext) (Answers.pure _)

/-- The state that a sink looks up, if there is one. -/
def LooksUp (names : List String) (depth : Nat) (x : Option Entry) (links : List Link) : Prop :=
  match x with
  | none => links = []
  | some state => ∃ line e, links = [⟨line, "withState", [e], none⟩] ∧
      IsEntry names depth state e ∧ state.isSource = true

theorem answers_sink_state {x : Option Entry} {links : List Link} {depth : Nat}
    (h : LooksUp names depth x links) (destination : Destination) :
    Answers names (links.foldlM (SinkDraft.add (entryOf depth)) { destination := some destination })
      { destination := some destination, state := x } := by
  cases x with
  | none =>
    obtain rfl : links = [] := h
    exact Answers.pure _
  | some state =>
    obtain ⟨line, e, rfl, hentry, hsource⟩ := h
    rw [List.foldlM_cons]
    refine Answers.bind ?_ (Answers.pure _)
    rw [SinkDraft.add, if_neg (by simp), if_neg (by simp; decide), if_pos rfl]
    refine Answers.bind hentry ?_
    rw [if_pos hsource]
    exact Answers.pure _

/-- A sink, once each of its methods is written. -/
theorem writes_sink {target : Target} {destination : Destination} {state : Option Entry}
    {instructions : Option String} {depth : Nat} {start call lookup more : String}
    (hstart : WritesLinks (d + 1) start fun links => ∃ link, links = [link] ∧
      IsTarget "sink" target link)
    (hcall : WritesLinks (d + 1) call fun links => ∃ link, links = [link] ∧
      IsDestination names destination link)
    (hlookup : WritesLinks (d + 1) lookup (LooksUp names depth state))
    (hmore : WritesLinks (d + 1) more (AreInstructions instructions)) :
    Writes (d + 1) ("sink" ++ "()" ++ start ++ call ++ lookup ++ more)
      (IsEntry names (depth + 1) (.sink target destination state instructions)) ∧
        IsRooted ("sink" ++ "()" ++ start ++ call ++ lookup ++ more) := by
  rw [String.append_assoc, String.append_assoc, String.append_assoc]
  refine ⟨?_, isRooted_append (by simp) _⟩
  refine (Writes.rooted (by decide) (by decide)
    (hstart.append (hcall.append (hlookup.append hmore)))).mono ?_
  rintro e ⟨line, line', chain, hchain, _, _, rfl, ⟨first, rfl, hfirst⟩, _, _, rfl,
    ⟨link, rfl, hto, hanswers⟩, stated, rest, rfl, hstated, hrest⟩
  have hother := ne_instructions_of_startsWith hto (by decide)
  simp only [IsEntry, entryOf, hchain, List.cons_append, List.nil_append, Expr.calleeName?]
  refine Answers.bind (Answers.lift hfirst) ?_
  refine Answers.bind
    (a := { destination := some destination, state := state, instructions := instructions }) ?_
    (Answers.pure _)
  rw [List.foldlM_cons]
  refine Answers.bind (a := { destination := some destination }) ?_ ?_
  · rw [SinkDraft.add, if_neg hother, if_pos hto]
    exact Answers.bind hanswers (Answers.pure _)
  · rw [List.foldlM_append]
    refine Answers.bind (answers_sink_state hstated destination) ?_
    refine answers_instructions (SinkDraft.mk (some destination) state) hrest ?_
    intro link s hmethod htext
    rw [SinkDraft.add, if_pos hmethod]
    exact Answers.bind (Answers.lift htext) (Answers.pure _)

theorem renders_entryChain {x : Entry} (hlinked : x.Linked (m.Offers names))
    (hproper : x.Proper (d + 1)) (depth : Nat) :
    Renders (entryChain m x) fun t =>
      Writes (d + 2) t (IsEntry names (depth + 2) x) ∧ IsRooted t := by
  match x with
  | .source target origin instructions =>
    exact renders_source target instructions hlinked hproper (depth + 1)
  | .sink target destination none instructions =>
    obtain ⟨hstart, htarget⟩ := writes_target (d + 1) "sink" target
    obtain ⟨call, hcall, hdestination⟩ := writes_destination hlinked hproper (d + 1)
    obtain ⟨more, hmore, hinstructions⟩ := writes_instructions (d + 1) instructions
    rw [entryChain]
    refine Renders.useFunction (by decide) ?_
    refine Renders.lift_bind hstart ?_
    refine Renders.lift_bind hcall ?_
    refine Renders.lift_bind hmore ?_
    have hlookup : WritesLinks (d + 2) "" (LooksUp names (depth + 1) none) :=
      WritesLinks.empty (d + 2)
    have hwrites := writes_sink htarget hdestination hlookup hinstructions
    rw [String.append_empty] at hwrites
    exact Renders.pure hwrites
  | .sink target destination (some (.sink ..)) instructions =>
    exact absurd hproper.2.1 (by simp [Entry.isSource])
  | .sink target destination (some (.source t o i)) instructions =>
    obtain ⟨hstart, htarget⟩ := writes_target (d + 1) "sink" target
    obtain ⟨call, hcall, hdestination⟩ := writes_destination hlinked.1 hproper.1 (d + 1)
    obtain ⟨more, hmore, hinstructions⟩ := writes_instructions (d + 1) instructions
    rw [entryChain]
    refine Renders.useFunction (by decide) ?_
    refine Renders.lift_bind hstart ?_
    refine Renders.lift_bind hcall ?_
    refine Renders.bind (renders_source t i hlinked.2 hproper.2.2 depth)
      fun lookup hstate => ?_
    refine Renders.lift_bind hmore ?_
    have hlookup : WritesLinks (d + 2) (methodCall "withState" [lookup])
        (LooksUp names (depth + 1) (some (.source t o i))) := by
      refine (WritesLinks.one hstate.1 (by decide)).mono ?_
      rintro links ⟨line, e, rfl, he⟩
      exact ⟨line, e, rfl, he, rfl⟩
    exact Renders.pure (writes_sink htarget hdestination hlookup hinstructions)

end Emission

end EventFlow
