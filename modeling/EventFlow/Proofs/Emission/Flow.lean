import EventFlow.Proofs.Emission.Server

/-! The statements of slices and flows, written and read.

A slice is a call with methods, and each method says one thing of it. `Draws … a b links` says that
the methods `links` take what is known of the slice from `a` to `b`; the four methods of a slice
draw it from nothing. -/

namespace EventFlow

open Text

/-- The data of a slice is not nested too deep, and no line of its request ends in a carriage
return. -/
structure Slice.Proper (d : Nat) (x : Slice) : Prop where
  payload : ∀ b ∈ x.server.specs, ∀ y ∈ b.examples, y.data.IsPayload d
  data : ∀ e ∈ x.server.data, e.Proper (d + 2)
  request : ∀ s ∈ x.request, ¬ ['\r', '\n'] <:+: s.toList

theorem Slice.Proper.mono {x : Slice} {d d' : Nat} (h : x.Proper d) (hle : d ≤ d') :
    x.Proper d' where
  payload b hb y hy :=
    have hy := h.payload b hb y hy
    { hy with depth := Nat.le_trans hy.depth hle }
  data e he := (h.data e he).mono (Nat.add_le_add_right hle 2)
  request := h.request

namespace Emission

open Declaration.LineState Extraction Token
open Program (ReadsExpr ReadsLinks ReadsStatement statementNames)

variable {m : Model} {declared : Declared} {d depth : Nat} {names : List String} {kind : SliceKind}
  {indent : String} {stream : Option String} {es : List Expr}

/-! ## Methods of a slice -/

/-- The methods add to what is known of a slice. -/
def Draws (names : List String) (depth : Nat) (declared : Declared) (kind : SliceKind)
    (a b : SliceDraft) (links : List Link) : Prop :=
  Answers names (links.foldlM (SliceDraft.add depth declared kind) a) b

theorem Draws.nil (a : SliceDraft) : Draws names depth declared kind a a [] := Answers.pure a

theorem Draws.one {a b : SliceDraft} {link : Link}
    (h : Answers names (SliceDraft.add depth declared kind a link) b) :
    Draws names depth declared kind a b [link] := by
  unfold Draws
  rw [List.foldlM_cons]
  exact Answers.bind h (Answers.pure b)

theorem Draws.append {a b c : SliceDraft} {xs ys : List Link}
    (hx : Draws names depth declared kind a b xs) (hy : Draws names depth declared kind b c ys) :
    Draws names depth declared kind a c (xs ++ ys) := by
  unfold Draws
  rw [List.foldlM_append]
  exact Answers.bind hx hy

/-- Method calls on a line of their own. -/
theorem Calls.of_writes {t : String} {Q : List Link → Prop} (h : WritesLinks d t Q)
    (hquiet : isQuiet t = true) (htidy : isTidy t = true)
    (hindent : IsIndent indent) : Calls d [indent ++ t] Q := by
  obtain ⟨-, ls, hinline, hreads⟩ := h
  exact ⟨ls, Closable.of_inline (inline_indent hindent hinline) (isQuiet_indent hindent hquiet)
    (isTidy_append htidy), hreads⟩

theorem renders_streamLines (hindent : IsIndent indent) (x : Option String) :
    Renders (liftM (streamLines indent x) : Emit (List String)) fun ts =>
      Calls (d + 1) ts (Draws names depth declared kind {} { stream := x }) := by
  cases x with
  | none =>
    refine Renders.lift (a := []) rfl ((Calls.nil (d + 1)).mono ?_)
    rintro links rfl
    exact Draws.nil _
  | some s =>
    have hline : indent ++ ".stream(" ++ quote s ++ ")" =
        indent ++ methodCall "stream" [quote s] := by
      have hopen : (".stream(" : String) = "." ++ "stream" ++ "(" := rfl
      simp only [methodCall, joinWith, hopen, String.append_assoc]
    refine Renders.lift (a := [indent ++ methodCall "stream" [quote s]]) ?_ ?_
    · rw [streamLines, quotedOption, quoted_text, ← hline]
      rfl
    · have hcalls := Calls.of_writes (WritesLinks.onlyText d (by decide : isFullName "stream") s)
        (isQuiet_append (isQuiet_append (isQuiet_append (isQuiet_append (by decide)))))
        (isTidy_append (by decide)) hindent
      refine hcalls.mono ?_
      rintro links ⟨⟨line, method, args, types⟩, rfl, rfl, htext⟩
      exact Draws.one (Answers.bind (Answers.lift htext) (Answers.pure _))

/-! ## Clients -/

/-- A statement that says what a client should do. -/
def IsShould (text : String) (s : Statement) : Prop :=
  shouldText s = .ok text

/-- A statement that says all that a client should do. -/
def IsClient (x : Client) (s : Statement) : Prop :=
  clientPart s = .ok (some x.description, x.specs)

theorem says_should (hindent : IsIndent indent) (text : String) :
    Says (d + 1) [indent ++ "should(" ++ quote text ++ ");"] fun _ s => IsShould text s := by
  have hwrites := Writes.call (P := fun (Q : Expr → Prop) => Q) (f := "should")
    (.cons (Writes.text d text) .nil) (by decide) (by decide)
  have hsays := Says.of_writes hwrites (by rw [String.append_assoc]) (by decide) (by decide) hindent
    (by decide)
  have hline : indent ++ "should(" ++ quote text ++ ");" =
      indent ++ ("should" ++ "(" ++ joinWith ", " [quote text] ++ ")") ++ ";" := by
    have hopen : ("should(" : String) = "should" ++ "(" := rfl
    have hclose : (");" : String) = ")" ++ ";" := rfl
    simp only [joinWith, hopen, hclose, String.append_assoc]
  rw [hline]
  refine hsays.mono ?_
  rintro doc s ⟨line, e, rfl, l, l', es, rfl, hes⟩
  rcases hes with _ | ⟨⟨l'', rfl⟩, _ | _⟩
  rfl

theorem clientPart_eq {x : Client} {doc : Option String} {s : Statement}
    (h : IsValue (fun e => ∃ line line' es b, e = .call line (.identifier line' "specs") (es ++ [b])
      none ∧ List.Forall₂ (fun e Q => Q e) es [IsText x.description] ∧
        IsBlock IsShould x.specs b) doc s) : IsClient x s := by
  obtain ⟨line, e, rfl, l, l', es, b, rfl, hes, l'', ss, rfl, hss⟩ := h
  rcases hes with _ | ⟨⟨l3, rfl⟩, _ | _⟩
  show (List.mapM shouldText ss >>= _) = _
  rw [mapM_ok hss]
  rfl

theorem clientOf_eq {line : Nat} {b : Expr} {x : Client} (hb : IsBlock IsClient [x] b) :
    clientOf ⟨line, "client", [b], none⟩ = .ok x := by
  obtain ⟨l, ss, rfl, hss⟩ := hb
  rcases hss with _ | ⟨hs, _ | _⟩
  unfold clientOf
  show (List.mapM clientPart _ >>= _) = _
  rw [mapM_ok (.cons hs .nil)]
  show Except.ok (⟨x.description, [(some x.description, x.specs)].flatMap (·.2)⟩ : Client) = _
  rw [List.flatMap_singleton]

theorem renders_clientLines (hindent : IsIndent indent) (x : Option Client) :
    Renders (clientLines indent x) fun ts => Calls (d + 5) ts
      (Draws names depth declared kind { stream := stream } { stream := stream, client := x }) := by
  cases x with
  | none =>
    refine Renders.pure ((Calls.nil (d + 5)).mono ?_)
    rintro links rfl
    exact Draws.nil _
  | some x =>
    have hinner := isIndent_append (b := "  ") hindent (by decide)
    have hinmost := isIndent_append (b := "    ") hindent (by decide)
    unfold clientLines
    refine Renders.useFunction (by decide) ?_
    refine Renders.bind (Renders.mapM (P := fun text line =>
      Says (d + 1) [line] fun _ s => IsShould text s) fun text _ => ?_) fun lines hlines => ?_
    · refine Renders.useFunction (by decide) ?_
      refine Renders.lift_bind (quoted_text text) ?_
      refine Renders.pure ?_
      have hline : indent ++ "    should(" ++ quote text ++ ");" =
          indent ++ "    " ++ "should(" ++ quote text ++ ");" := by
        have hopen : ("    should(" : String) = "    " ++ "should(" := rfl
        simp only [hopen, String.append_assoc]
      rw [hline]
      exact says_should hinmost text
    refine Renders.lift_bind (quoted_text x.description) ?_
    refine Renders.pure ?_
    have hshoulds : SaysAll (d + 1) lines IsShould x.specs := by
      have hall := SaysAll.flatten (List.forall₂_map_left_iff.2 hlines : List.Forall₂
        (fun ts x => Says (d + 1) ts fun _ s => IsShould x s) (lines.map ([·])) x.specs)
      rwa [← List.flatMap_def, List.flatMap_singleton'] at hall
    have htitle : List.Forall₂ (Writes (d + 2)) [quote x.description] [IsText x.description] :=
      .cons (Writes.text _ _) .nil
    have hspecs := says_block (f := "specs") hinner (by decide) (by decide) (by decide) (by decide)
      htitle (by simp) hshoulds
    have hheader : "specs" ++ "(" ++ joinWith ", " [quote x.description] ++ ", " =
        "specs(" ++ quote x.description ++ ", " := rfl
    rw [hheader] at hspecs
    have hbody := SaysAll.of_says (P := IsClient) (hspecs.mono fun doc s h =>
      (clientPart_eq h : IsClient x s))
    refine (calls_block hindent (by decide : isFullName "client" = true) hbody none).mono ?_
    rintro links ⟨line, b, more, rfl, hb, hmore⟩
    cases hmore
    exact Draws.one (Answers.bind (Answers.lift (clientOf_eq hb)) (Answers.pure _))

/-! ## Requests -/

/-- The lexemes of a request. -/
def requestLexemes (r : String) : List Lexeme :=
  [Lexeme.punct ".", .identifier "request", .punct "(", .identifier "gql"] ++
    .template r false :: [.punct ")"]

/-- A request draws its text, whatever it is. -/
theorem reads_request (d : Nat) {client : Option Client} (r : String) :
    ReadsLinks (d + 1) (requestLexemes r)
      (Draws names depth declared kind { stream := stream, client := client }
        { stream := stream, client := client, request := some r }) := by
  have hreads := ReadsLinks.method (P := fun (Q : Expr → Prop) => Q) (.cons (ReadsExpr.tagged d
    (by decide : "gql" ∉ Program.literalNames) (by decide) r) .nil) (Or.inl rfl) "request"
  refine ReadsLinks.mono hreads ?_
  rintro links ⟨line, es, rfl, hes⟩
  rcases hes with _ | ⟨⟨l, l', rfl⟩, _ | _⟩
  exact Draws.one (Answers.bind (Answers.lift rfl) (Answers.pure _))

theorem inline_request (hindent : IsIndent indent) :
    Inline (indent ++ ".request(gql")
      [.punct ".", .identifier "request", .punct "(", .identifier "gql"] :=
  inline_indent hindent (Inline.of_check)

/-- Nothing is opened or closed around the template of a request. -/
theorem isInert_request {post : String} (hindent : IsIndent indent)
    (hpost : post.toList.all isInert = true) :
    ∀ c ∈ (indent ++ ".request(gql").toList ++ post.toList, isInert c = true := by
  intro c hc
  rw [String.toList_append, List.append_assoc, List.mem_append, List.mem_append] at hc
  rcases hc with hc | hc | hc
  · rw [of_decide_eq_true (List.all_eq_true.1 hindent c hc)]
    decide
  · exact List.all_eq_true.1 (by decide : ".request(gql".toList.all isInert = true) c hc
  · exact List.all_eq_true.1 hpost c hc

theorem renders_requestLines (hindent : IsIndent indent) {client : Option Client}
    {x : Option String} (hx : ∀ s ∈ x, ¬ ['\r', '\n'] <:+: s.toList) :
    Renders (requestLines indent x) fun ts => Calls (d + 1) ts
      (Draws names depth declared kind { stream := stream, client := client }
        { stream := stream, client := client, request := x }) := by
  cases x with
  | none =>
    refine Renders.pure ((Calls.nil (d + 1)).mono ?_)
    rintro links rfl
    exact Draws.nil _
  | some s =>
    unfold requestLines
    refine Renders.useFunction (by decide) ?_
    refine Renders.lift_bind (a := quoteTemplate s) rfl ?_
    refine Renders.pure ?_
    have hpre := inline_request hindent
    have hquiet : isQuiet (indent ++ ".request(gql") = true := isQuiet_indent hindent (by decide)
    have hlines : Closable [indent ++ ".request(gql" ++ quoteTemplate s ++ ")"]
        (requestLexemes s) := by
      have hopened := Line.template hpre Inline.closeParen hquiet (by decide)
        (isInert_request hindent (by decide)) (hx s rfl)
      have hended := Line.template hpre Inline.callEnd hquiet (by decide)
        (isInert_request hindent (by decide)) (hx s rfl)
      have hclose : (");" : String) = ")" ++ ";" := rfl
      rw [hclose, ← String.append_assoc] at hended
      exact ⟨Lines.one hopened, fun _ => Lines.one hended⟩
    exact ⟨_, hlines, reads_request d s⟩

/-! ## Slices -/

/-- A name and an id as arguments. -/
def IsNamed (name : String) (id : Option String) (es : List Expr) : Prop :=
  List.Forall₂ (fun e s => IsText s e) es (name :: id.toList)

theorem exists_of_isNamed {name : String} {id : Option String} (h : IsNamed name id es) :
    (id = none ∧ ∃ l, es = [.text l name]) ∨
      ∃ s l l', id = some s ∧ es = [.text l name, .text l' s] := by
  unfold IsNamed at h
  cases id with
  | none =>
    rcases h with _ | ⟨⟨l, rfl⟩, _ | _⟩
    exact .inl ⟨rfl, l, rfl⟩
  | some s =>
    rcases h with _ | ⟨⟨l, rfl⟩, _ | ⟨⟨l', rfl⟩, _ | _⟩⟩
    exact .inr ⟨s, l, l', rfl, rfl⟩

theorem nameArguments_eq (name : String) (id : Option String) :
    nameArguments name id = .ok (joinWith ", " ((name :: id.toList).map quote)) := by
  cases id with
  | none => simp only [nameArguments, quotedOption, quoted_text]; rfl
  | some s => simp only [nameArguments, quotedOption, quoted_text]; rfl

theorem sliceNames_eq (constructor : String) (line : Nat) {name : String} {id : Option String}
    (h : IsNamed name id es) : sliceNames constructor line es = .ok (name, id) := by
  obtain ⟨rfl, l, rfl⟩ | ⟨s, l, l', rfl, rfl⟩ := exists_of_isNamed h <;> rfl

/-- The server is drawn last, and one that says nothing is not drawn. -/
theorem draws_server {x : Server} {links : List Link}
    (h : AreServer names depth declared kind x links) {client : Option Client}
    {request : Option String} :
    ∃ server : Option Server, server.getD Server.empty = x ∧
      Draws names depth declared kind ⟨stream, client, request, none⟩
        ⟨stream, client, request, server⟩ links := by
  rcases h with ⟨rfl, rfl⟩ | ⟨⟨line, method, args, types⟩, rfl, rfl, hanswers⟩
  · exact ⟨none, rfl, Draws.nil _⟩
  · exact ⟨some x, rfl, Draws.one (Answers.bind hanswers (Answers.pure _))⟩

/-- A statement that is read as the given slice. -/
def IsSlice (names : List String) (depth : Nat) (declared : Declared) (x : Slice) (s : Statement) :
    Prop :=
  ∀ flow, Answers names (flowSlice depth declared flow s) x

theorem Answers.inSlice {α : Type} {w : Walk α} {a : α} (h : Answers names w a) (name : String) :
    Answers names (inSlice name w) a := by
  intro f
  obtain ⟨g, hg, hgrows⟩ := h f
  exact ⟨g, by rw [Extraction.inSlice, hg], hgrows⟩

theorem answers_sliceOf {x : Slice} {e : Expr} {line line' : Nat} {links : List Link}
    (hchain : e.chain = (.call line (.identifier line' x.kind.word) es none, links))
    (hnamed : IsNamed x.name x.id es) {server : Option Server}
    (hserver : server.getD Server.empty = x.server)
    (hdraws : Draws names depth declared x.kind {} ⟨x.stream, x.client, x.request, server⟩ links) :
    Answers names (sliceOf depth declared e) x := by
  have hkind : sliceConstructors.lookup x.kind.word = some x.kind := by
    cases x.kind <;> decide
  unfold sliceOf
  rw [hchain]
  dsimp only [Expr.calleeName?, Option.bind_some]
  rw [hkind]
  refine Answers.bind (a := (x.name, x.id)) (Answers.lift (sliceNames_eq _ _ hnamed)) ?_
  refine Answers.bind (Answers.inSlice hdraws x.name) ?_
  rw [hserver]
  exact Answers.pure x

/-- A call with methods, over several lines and ended by a semicolon. -/
theorem says_chain {f : String} (hf : isFullName f = true) (hcallable : Program.isCallable f = true)
    (hname : f ∉ statementNames) (hquiet : isQuiet f = true)
    (hindent : IsIndent indent) {ts : List String} {Qs : List (Expr → Prop)}
    (hts : List.Forall₂ (Writes d) ts Qs) {rest : List String} {Q : List Link → Prop}
    (hrest : Calls (d + 1) rest Q) :
    Says (d + 1) (ended ([indent ++ f ++ "(" ++ joinWith ", " ts ++ ")"] ++ rest))
      (IsValue fun e => ∃ line line' es links,
        e.chain = (.call line (.identifier line' f) es none, links) ∧
          List.Forall₂ (fun e Q => Q e) es Qs ∧ Q links) := by
  obtain ⟨lss, hinline, hreads⟩ := exists_between (R := Inline)
    (S := fun ls Q => ReadsExpr d ls Q) hts
  obtain ⟨ls, hclosable, hlinks⟩ := hrest
  have hcall := inline_arguments hinline
    ((Inline.name hf).append Inline.openParen (Or.inr (by decide)))
    (closed_append (by decide))
  have hhead := Closable.of_inline (inline_indent hindent hcall)
    (isQuiet_indent hindent (isQuiet_append (isQuiet_append (isQuiet_append hquiet))))
    (isTidy_append (isTidy_append (by decide)))
  have hchain := ReadsExpr.chain (P := fun (Q : Expr → Prop) => Q) hreads hcallable hlinks
  have hstatement := ReadsStatement.expression hchain rfl hname
  have hlines := (hhead.append hclosable).2 (by simp)
  have htext : indent ++ (f ++ "(" ++ joinWith ", " ts ++ ")") =
      indent ++ f ++ "(" ++ joinWith ", " ts ++ ")" := by
    simp only [String.append_assoc]
  rw [htext] at hlines
  refine ⟨_, hlines, ?_⟩
  have hlexemes : [Lexeme.identifier f] ++ [Lexeme.punct "("] ++ listed lss ++
      [Lexeme.punct ")"] ++ ls ++ [Lexeme.punct ";"] =
        (Lexeme.identifier f :: .punct "(" :: listed lss ++ .punct ")" :: ls) ++
          [Lexeme.punct ";"] := by
    simp
  rw [hlexemes]
  exact hstatement

theorem forall₂_texts (d : Nat) (xs : List String) :
    List.Forall₂ (Writes d) (xs.map quote) (xs.map IsText) := by
  rw [List.forall₂_map_left_iff, List.forall₂_map_right_iff, List.forall₂_same]
  exact fun s _ => Writes.text d s

theorem renders_sliceLines (hm : m.NamesMessages) (hi : m.NamesIntegrations)
    (hd : declared.Covers m) {x : Slice} (hfits : x.Fits m.HasMessage m.HasIntegration)
    (hproper : x.Proper d) (hnames : ∀ name, m.HasIntegration name → name ∈ names) (depth : Nat)
    (hindent : IsIndent indent) :
    Renders (sliceLines m indent x) fun ts =>
      Says (d + 7) ts fun _ s => IsSlice names (depth + 2) declared x s := by
  have hinner := isIndent_append (b := "  ") hindent (by decide)
  unfold sliceLines
  refine Renders.useFunction ?_ ?_
  · cases x.kind <;> decide
  refine Renders.lift_bind (nameArguments_eq x.name x.id) ?_
  let D := Draws names (depth + 2) declared x.kind
  refine Renders.bind (P := fun ts => Calls (d + 7) ts (D {} ⟨x.stream, none, none, none⟩))
    (renders_streamLines hinner x.stream) fun stream hstream => ?_
  refine Renders.bind (P := fun ts => Calls (d + 7) ts
      (D ⟨x.stream, none, none, none⟩ ⟨x.stream, x.client, none, none⟩))
    (renders_clientLines hinner x.client) fun client hclient => ?_
  refine Renders.bind (P := fun ts => Calls (d + 7) ts
      (D ⟨x.stream, x.client, none, none⟩ ⟨x.stream, x.client, x.request, none⟩))
    (renders_requestLines hinner hproper.request) fun request hrequest => ?_
  refine Renders.bind (renders_serverLines hm hi hd hfits.specs hproper.payload hfits.data
    hproper.data hnames depth hinner) fun server hserver => ?_
  refine Renders.pure ?_
  have hcalls := ((hstream.append hclient).append hrequest).append hserver
  have hword : isFullName x.kind.word = true ∧ Program.isCallable x.kind.word = true ∧
      x.kind.word ∉ statementNames ∧ isQuiet x.kind.word = true := by
    cases x.kind <;> decide
  have hsays := says_chain hword.1 hword.2.1 hword.2.2.1 hword.2.2.2 hindent
    (forall₂_texts (d + 6) (x.name :: x.id.toList)) hcalls
  rw [List.append_assoc, List.append_assoc, List.append_assoc]
  refine Says.mono (by simpa only [List.append_assoc] using hsays) ?_
  rintro doc s ⟨line, e, rfl, l, l', es, links, hchain, hes,
    a, b, rfl, ⟨c, g, rfl, ⟨p, q, rfl, hp, hq⟩, hg⟩, hb⟩
  have hnamed : IsNamed x.name x.id es := List.forall₂_map_right_iff.1 hes
  obtain ⟨v, hv, hdraws⟩ := draws_server hb
  exact fun _ => answers_sliceOf hchain hnamed hv (((hp.append hq).append hg).append hdraws)

/-! ## Flows -/

/-- Statements with an empty line between them. -/
theorem saysAll_intersperse {α : Type} {tss : List (List String)} {P : α → Statement → Prop}
    {xs : List α} (h : List.Forall₂ (fun ts x => Says d ts fun _ s => P x s) tss xs) :
    SaysAll d (tss.intersperse [""]).flatten P xs := by
  have hblank : SaysAll d [""] P [] := ⟨[], Lines.one Line.empty, .nil⟩
  induction h with
  | nil => exact ⟨[], Lines.nil, .nil⟩
  | @cons ts x tss xs hts hrest ih =>
    cases hrest with
    | nil => simpa using SaysAll.of_says hts
    | @cons us y tss xs hus hrest => exact (SaysAll.of_says hts).append (hblank.append ih)

/-- A statement that is read as the given flow when the comment above it describes it. -/
def IsFlow (names : List String) (depth : Nat) (declared : Declared) (x : Flow)
    (doc : Option String) (s : Statement) : Prop :=
  (doc.bind fun raw => (DocComment.parse raw).1) = x.description →
    ∀ (config : Config) (f : Findings), x.name ∉ f.flowNames →
      ∃ g, topLevel config depth declared s f = .ok (some x, g) ∧
        Findings.Grows names { f with flowNames := f.flowNames ++ [x.name] } g

theorem flowName_eq {name : String} {f : Findings} (hnew : name ∉ f.flowNames) (line l : Nat)
    (es : List Expr) : flowName line (.text l name :: es) f =
      .ok (name, { f with flowNames := f.flowNames ++ [name] }) := by
  have hcontains : f.flowNames.contains name = false := by simpa using hnew
  unfold flowName
  refine stateBind_eq_ok.2 ⟨f, f, rfl, ?_⟩
  rw [hcontains]
  rfl

theorem flowCallback_eq {name : String} {id : Option String} (h : IsNamed name id es) (line : Nat)
    (b : Expr) : flowCallback name line (es ++ [b]) = .ok (id, b) := by
  obtain ⟨rfl, l, rfl⟩ | ⟨s, l, l', rfl, rfl⟩ := exists_of_isNamed h <;> rfl

theorem isFlow_of_call {x : Flow} {doc : Option String} {line l l' l'' : Nat} {ss : List Statement}
    (hnamed : IsNamed x.name x.id es)
    (hss : List.Forall₂ (fun s x => IsSlice names depth declared x s) ss x.slices) :
    IsFlow names depth declared x doc
      (.expression line (.call l (.identifier l' "flow") (es ++ [.block l'' ss]) none) doc) := by
  intro hdoc config f hnew
  have hslices : Answers names (ss.mapM (flowSlice depth declared x.name)) x.slices :=
    Answers.mapM (hss.imp fun s y h => h x.name)
  obtain ⟨g, hg, hgrows⟩ := hslices { f with flowNames := f.flowNames ++ [x.name] }
  refine ⟨g, ?_, hgrows⟩
  show (flowOf depth declared _ doc >>= _) f = _
  refine stateBind_eq_ok.2 ⟨x, g, ?_, rfl⟩
  unfold flowOf
  refine stateBind_eq_ok.2
    ⟨x.name, { f with flowNames := f.flowNames ++ [x.name] }, ?_, ?_⟩
  · obtain ⟨first, more, hfirst, -, rfl⟩ := List.forall₂_cons_right_iff.1 hnamed
    obtain ⟨l3, rfl⟩ := hfirst
    exact flowName_eq hnew l l3 _
  · refine stateBind_eq_ok.2 ⟨(x.id, .block l'' ss), _,
      stateLift_eq_ok.2 ⟨flowCallback_eq hnamed _ _, rfl⟩, ?_⟩
    refine stateBind_eq_ok.2 ⟨x.slices, g, hg, ?_⟩
    rw [hdoc]
    rfl

/-- A flow is rendered as its comment and a statement, which is read as the flow with the
description that the comment above it gives. -/
theorem renders_flowLines (hm : m.NamesMessages) (hi : m.NamesIntegrations)
    (hd : declared.Covers m) {x : Flow}
    (hfits : ∀ s ∈ x.slices, s.Fits m.HasMessage m.HasIntegration)
    (hproper : ∀ s ∈ x.slices, s.Proper d)
    (hnames : ∀ name, m.HasIntegration name → name ∈ names) (depth : Nat)
    (description : Option String) :
    Renders (flowLines m x) fun ts => ∃ code, ts = DocComment.format x.description [] "" ++ code ∧
      Says (d + 9) code
        (IsFlow names (depth + 2) declared { x with description := description }) := by
  unfold flowLines
  refine Renders.useFunction (by decide) ?_
  refine Renders.lift_bind (a := DocComment.format x.description [] "") ?_ ?_
  · cases x.description <;> rfl
  refine Renders.lift_bind (nameArguments_eq x.name x.id) ?_
  refine Renders.bind (Renders.mapM (P := fun y ts => Says (d + 7) ts fun _ s =>
    IsSlice names (depth + 2) declared y s) fun y hy =>
      renders_sliceLines hm hi hd (hfits y hy) (hproper y hy) hnames depth (by decide))
    fun slices hslices => ?_
  refine Renders.pure ⟨_, rfl, ?_⟩
  have hindent : IsIndent "" := by decide
  have hblock := says_block (f := "flow") hindent (by decide) (by decide) (by decide) (by decide)
    (forall₂_texts (d + 8) (x.name :: x.id.toList)) (by simp) (saysAll_intersperse hslices)
  refine hblock.mono ?_
  rintro doc s ⟨line, e, rfl, l, l', es, b, rfl, hes, l'', ss, rfl, hss⟩
  exact isFlow_of_call (x := { x with description := description })
    (List.forall₂_map_right_iff.1 hes) hss

end Emission

end EventFlow
