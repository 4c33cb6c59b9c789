import EventFlow.Proofs.Emission.RoundTrip

/-! Requests and their line breaks.

A request is written as a template, in which only backslashes, backticks and the openings of
substitutions are escaped. A file is read with a line break in place of each carriage return that
has one behind it, also inside of templates. So a request comes back with its line breaks made
plain, and unchanged just if they are plain already:

    generate m(r) = ok text
    extract text = ok m(plainBreaks r)
    extract text = ok m(r)  ↔  no line break of r follows a carriage return

`plainBreaks` may leave such a pair behind (it takes one of two carriage returns), so the template
has to be read back whatever its text is. -/

namespace EventFlow.Emission

open Declaration Declaration.LineState Extraction Text Token
open Program (ReadsExpr ReadsLinks ReadsStatement importLexemes)

variable {cs : List Char} {c : Char}

/-! ## Plain line breaks -/

/-- Line breaks in place of carriage returns with a line break behind them. -/
def plainBreaks (cs : List Char) : List Char := replaceAll "\r\n" "\n" cs

theorem plainBreaks_cons_cons (cs : List Char) :
    plainBreaks ('\r' :: '\n' :: cs) = '\n' :: plainBreaks cs :=
  replaceAll_append "\r\n" "\n" (by decide) cs

theorem plainBreaks_cons (h : ¬ (c = '\r' ∧ cs.head? = some '\n')) :
    plainBreaks (c :: cs) = c :: plainBreaks cs :=
  replaceAll_cons fun hpair => h (pair_prefix_iff.1 hpair)

theorem plainBreaks_eq_self_iff :
    plainBreaks cs = cs ↔ ¬ ['\r', '\n'] <:+: cs := by
  refine ⟨fun h => ?_, fun h => replaceAll_of_not_infix "\n" h⟩
  induction cs with
  | nil => decide
  | cons c cs ih =>
    rw [List.infix_cons_iff, pair_prefix_iff, not_or]
    by_cases hpair : c = '\r' ∧ cs.head? = some '\n'
    · obtain ⟨rfl, hhead⟩ := hpair
      obtain ⟨rest, rfl⟩ := List.head?_eq_some_iff.1 hhead
      rw [plainBreaks_cons_cons, List.cons.injEq] at h
      exact absurd h.1 (by decide)
    · rw [plainBreaks_cons hpair, List.cons.injEq] at h
      exact ⟨hpair, ih h.2⟩

theorem head?_plainBreaks (hc : c ≠ '\n') (h : (plainBreaks cs).head? = some c) :
    cs.head? = some c := by
  cases cs with
  | nil => exact h
  | cons x cs =>
    by_cases hpair : x = '\r' ∧ cs.head? = some '\n'
    · obtain ⟨rfl, hhead⟩ := hpair
      obtain ⟨rest, rfl⟩ := List.head?_eq_some_iff.1 hhead
      rw [plainBreaks_cons_cons, List.head?_cons, Option.some.injEq] at h
      exact absurd h.symm hc
    · rwa [plainBreaks_cons hpair] at h

/-- Text whose breaks are plain stays as it is, whatever comes after it. -/
theorem HasPlainBreaks.plainBreaks_append {a : List Char} (h : HasPlainBreaks a) (b : List Char) :
    plainBreaks (a ++ b) = a ++ plainBreaks b := by
  obtain ⟨hpairs, hlast⟩ := h
  induction a with
  | nil => rfl
  | cons c a ih =>
    rw [List.infix_cons_iff, pair_prefix_iff, not_or] at hpairs
    cases a with
    | nil =>
      have hc : c ≠ '\r' := by simpa using hlast
      exact plainBreaks_cons fun hpair => hc hpair.1
    | cons x a =>
      rw [List.cons_append, plainBreaks_cons (by simpa using hpairs.1),
        ih hpairs.2 (by simpa using hlast)]
      rfl

theorem templateChars_cons (h : ¬ (c = '$' ∧ cs.head? = some '{')) :
    templateChars (c :: cs) =
      if c = '\\' || c = '`' then '\\' :: c :: templateChars cs else c :: templateChars cs := by
  rw [templateChars]
  rintro rest rfl rfl
  exact h ⟨rfl, rfl⟩

/-- The breaks of a template are made plain with those of its text. -/
theorem plainBreaks_templateChars (r rest : List Char) :
    plainBreaks (templateChars r ++ '`' :: rest) =
      templateChars (plainBreaks r) ++ '`' :: plainBreaks rest := by
  fun_induction templateChars r with
  | case1 => exact plainBreaks_cons (by simp)
  | case2 r ih =>
    have htext : plainBreaks ('$' :: '{' :: r) = '$' :: '{' :: plainBreaks r := by
      rw [plainBreaks_cons (by simp), plainBreaks_cons (by simp)]
    rw [htext, templateChars]
    simp only [List.cons_append]
    rw [plainBreaks_cons (by simp), plainBreaks_cons (by simp), plainBreaks_cons (by simp), ih]
  | case3 c r hno hc ih =>
    have hmark : c ≠ '\r' ∧ c ≠ '$' := by
      constructor <;> (rintro rfl; exact absurd hc (by decide))
    rw [plainBreaks_cons (by simp [hmark.1]), templateChars_cons (by simp [hmark.2]), if_pos hc]
    simp only [List.cons_append]
    rw [plainBreaks_cons (by simp), plainBreaks_cons (by simp [hmark.1]), ih]
  | case4 c r hno hc ih =>
    by_cases hpair : c = '\r' ∧ r.head? = some '\n'
    · -- the carriage return goes, and the line break after it is the next character
      obtain ⟨rfl, hhead⟩ := hpair
      obtain ⟨r, rfl⟩ := List.head?_eq_some_iff.1 hhead
      have hbreak : ∀ cs, templateChars ('\n' :: cs) = '\n' :: templateChars cs := fun cs => by
        rw [templateChars_cons (by simp), if_neg (by decide)]
      rw [plainBreaks_cons (by simp), hbreak, hbreak, List.cons_append,
        plainBreaks_cons (by simp), List.cons_append, List.cons.injEq] at ih
      rw [plainBreaks_cons_cons, hbreak, hbreak, List.cons_append, List.cons_append,
        plainBreaks_cons_cons, List.cons_append, ih.2]
    · have hopening : ¬ (c = '$' ∧ (plainBreaks r).head? = some '{') := by
        rintro ⟨rfl, hhead⟩
        obtain ⟨more, rfl⟩ := List.head?_eq_some_iff.1 (head?_plainBreaks (by decide) hhead)
        exact hno more rfl rfl
      have hline : ¬ (c = '\r' ∧ (templateChars r ++ '`' :: rest).head? = some '\n') := by
        rintro ⟨rfl, hhead⟩
        refine hpair ⟨rfl, head?_templateChars ?_⟩
        rw [List.head?_append] at hhead
        cases htemplate : (templateChars r).head? with
        | none => simp [htemplate] at hhead
        | some x => simpa [htemplate] using hhead
      rw [plainBreaks_cons hpair, templateChars_cons hopening, if_neg hc, List.cons_append,
        plainBreaks_cons hline, ih, List.cons_append]

/-- The breaks of a file are made plain with those of the text of a template in it. -/
theorem plainBreaks_unlines {before after : List String} (hbefore : before ≠ [])
    (hafter : after ≠ []) (hbreaks : ∀ t ∈ before ++ after, HasPlainBreaks t.toList)
    {pre post : String} (hpre : '\n' ∉ pre.toList) (hpost : HasPlainBreaks post.toList)
    (r : String) :
    plainBreaks (unlines (before ++ (pre ++ quoteTemplate r ++ post) :: after)).toList =
      (unlines (before ++
        (pre ++ quoteTemplate (String.ofList (plainBreaks r.toList)) ++ post) ::
          after)).toList := by
  have hlist : ∀ r, (unlines (before ++ (pre ++ quoteTemplate r ++ post) :: after)).toList =
      (unlines before).toList ++ '\n' :: (pre.toList ++ ['`']) ++ (templateChars r.toList ++
        '`' :: (post.toList ++ '\n' :: (unlines after).toList)) := by
    intro r
    obtain ⟨t, ts, rfl⟩ := List.exists_cons_of_ne_nil hafter
    rw [unlines_append hbefore (by simp), toList_unlines_cons_cons, toList_template]
    simp
  have hopening : HasPlainBreaks (pre.toList ++ ['`']) :=
    ⟨fun hi => hpre (by simpa using hi.subset (by simp : '\n' ∈ ['\r', '\n'])), by simp⟩
  have hstart := (hasPlainBreaks_unlines fun t ht => hbreaks t (List.mem_append_left _ ht))
    |>.append_line hopening
  have hend := hpost.append_line
    (hasPlainBreaks_unlines fun t ht => hbreaks t (List.mem_append_right _ ht))
  rw [hlist, hstart.plainBreaks_append, plainBreaks_templateChars, plainBreaks_eq_self_iff.2 hend.1,
    hlist, String.toList_ofList]

/-- A file with a template in it is read line by line with plain breaks. -/
theorem linesOf_template {before after : List String} {lb la : List Lexeme}
    (hbefore : Lines before lb) (hafter : Lines after la) (hb : before ≠ []) (ha : after ≠ [])
    {pre post : String} (hpre : '\n' ∉ pre.toList) (hpost : HasPlainBreaks post.toList)
    (r : String) :
    linesOf (unlines (before ++ (pre ++ quoteTemplate r ++ post) :: after)) =
      (before ++ (pre ++ quoteTemplate (String.ofList (plainBreaks r.toList)) ++ post) ::
        after).flatMap lines := by
  have hplain := plainBreaks_unlines hb ha (hbefore.append hafter).tidy hpre hpost r
  show (cut '\n' (plainBreaks (unlines _).toList)).map String.ofList = _
  rw [hplain, cut_unlines (by simp), List.map_flatMap]
  rfl

/-- The search for declarations goes past a file of code with a template in it. -/
theorem quiet_lines_template {before after : List String} {lb la : List Lexeme}
    (hbefore : Lines before lb) (hafter : Lines after la) {t : String}
    (ht : ∀ b a, ∃ b' a', Skips (fun _ => True) (level b a) (lines t) (level b' a')) :
    ∃ b a, Skips (fun _ => True) (level 0 0) ((before ++ t :: after).flatMap lines)
      (level b a) := by
  obtain ⟨b, a, hstart⟩ := hbefore.quiet 0 0
  obtain ⟨b', a', hline⟩ := ht b a
  obtain ⟨b'', a'', hend⟩ := hafter.quiet b' a'
  rw [List.flatMap_append, List.flatMap_cons]
  exact ⟨b'', a'', hstart.append (hline.append hend)⟩

/-! ## Files that declare no types -/

theorem blankLines_nil (lines : List String) : blankLines [] lines = lines := by
  simp [blankLines]

/-- A file without declarations is read as a program. -/
theorem extract_of_skips {config : Config} {source : String} {lines : List String}
    (hlines : linesOf source = lines) {b a : Int}
    (hskips : Skips (fun _ => True) (level 0 0) lines (level b a)) :
    extract config source =
      (programOf config.nestingLimit (unlines lines).toList >>= modelOf config {}) := by
  have hscan : scan lines = [] := by
    have hstart : ({} : LineState) = level 0 0 := rfl
    have hend := scanFrom_skips hskips 0 []
    rw [List.append_nil] at hend
    rw [scan, hstart, hend]
    rfl
  have htable : table config.nestingLimit lines [] = .ok {} := rfl
  unfold extract
  simp only [hlines, hscan, htable]
  show (programOf _ (unlines (blankLines [] lines)).toList >>= _) = _
  rw [blankLines_nil]

/-! ## One flow with one request -/

/-- A query that says nothing but its request. -/
def requestSlice (slice r : String) : Slice :=
  { kind := .query, name := slice, request := some r, server := Server.empty }

/-- A flow with one query that says nothing but its request. -/
def requestFlow (flow slice r : String) : Flow := { name := flow, slices := [requestSlice slice r] }

/-- The model of one flow with one request. -/
def requestModel (flow slice r : String) : Model :=
  { flows := [requestFlow flow slice r], messages := [], integrations := [] }

def requestHead (flow slice : String) : List String :=
  [importText false ["flow", "gql", "query"] "@auto-engineer/flow", "",
    "flow(" ++ quote flow ++ r", () => {", "  query(" ++ quote slice ++ ")"]

/-- The lines of its source text. -/
def requestFile (flow slice r : String) : List String :=
  requestHead flow slice ++ ("    " ++ ".request(gql" ++ quoteTemplate r ++ ");") :: [r"});", ""]

/-! ## Writing it -/

theorem run_sliceLines_request (m : Model) (slice r : String) (u : Usage) :
    (sliceLines m "  " (requestSlice slice r)).run u =
      (.ok ["  query(" ++ quote slice ++ ")", "    " ++ ".request(gql" ++ quoteTemplate r ++ ");"],
        (u.function "query").function "gql") := by
  have hbare : isBare Server.empty = true := by decide
  have hserver : serverLines m .query ("  " ++ "  ") Server.empty = pure [] := by
    rw [serverLines, if_pos hbare]
  have hhead : ("  query(" : String) = "  " ++ "query" ++ "(" := rfl
  have hrequest : "    " ++ ".request(gql" ++ quoteTemplate r ++ ");" =
      "  " ++ "  " ++ ".request(gql" ++ quoteTemplate r ++ ")" ++ ";" := by
    have hindent : ("    " : String) = "  " ++ "  " := rfl
    have hclose : (");" : String) = ")" ++ ";" := rfl
    rw [hindent, hclose, ← String.append_assoc]
  rw [hhead, hrequest]
  unfold sliceLines requestSlice
  simp only [nameArguments_eq, hserver]
  rfl

theorem run_flowLines_request (m : Model) (flow slice r : String) (u : Usage) :
    (flowLines m (requestFlow flow slice r)).run u =
      (.ok ["flow(" ++ quote flow ++ r", () => {", "  query(" ++ quote slice ++ ")",
        "    " ++ ".request(gql" ++ quoteTemplate r ++ ");", r"});"],
        ((u.function "flow").function "query").function "gql") := by
  have hslices : ([requestSlice slice r].mapM (sliceLines m "  ")).run (u.function "flow") =
      (.ok [["  query(" ++ quote slice ++ ")",
          "    " ++ ".request(gql" ++ quoteTemplate r ++ ");"]],
        ((u.function "flow").function "query").function "gql") :=
    run_bind (run_sliceLines_request m slice r (u.function "flow"))
  have hhead : "flow(" ++ quote flow ++ r", () => {" =
      "" ++ ("flow(" ++ quote flow ++ ", ") ++ r"() => {" := by
    have hopen : (r", () => {" : String) = ", " ++ r"() => {" := rfl
    rw [hopen, ← String.append_assoc, String.empty_append]
  rw [hhead]
  unfold flowLines requestFlow
  simp only [nameArguments_eq]
  refine (run_bind rfl).trans ?_
  refine (run_bind rfl).trans ?_
  refine (run_bind rfl).trans ?_
  exact run_bind hslices

theorem generate_request (n : Nat) (flow slice r : String) :
    generate { nestingLimit := n } (requestModel flow slice r) =
      .ok (unlines (requestFile flow slice r)) := by
  have hflows : ((requestModel flow slice r).flows.mapM
      (flowLines (requestModel flow slice r))).run {} = _ :=
    run_bind (run_flowLines_request _ flow slice r {})
  have himports : importLines { nestingLimit := n } ["flow", "query", "gql"] []
      ([] : List Integration) [] =
      .ok [importText false ["flow", "gql", "query"] "@auto-engineer/flow"] :=
    importLines_functions _ (by decide) (by decide) (by decide) (by decide) (by decide)
  have hforeign : foreignTypes (requestModel flow slice r) = .ok [] := by cbv
  rw [generate_eq rfl hflows rfl hforeign himports, joinSections_eq]
  rfl

/-! ## Reading it -/

section Reading

variable {names : List String} {depth : Nat} {declared : Declared}

/-- The lexemes of the query. -/
def querySliceLexemes (slice r : String) : List Lexeme :=
  (.identifier "query" :: .punct "(" :: listed [[.text slice]] ++ .punct ")" :: requestLexemes r) ++
    [Lexeme.punct ";"]

/-- The lexemes of the flow. -/
def queryFlowLexemes (flow slice r : String) : List Lexeme :=
  [Lexeme.identifier "flow"] ++ [Lexeme.punct "("] ++ listed [[.text flow]] ++ [Lexeme.punct ","] ++
    callbackLexemes [querySliceLexemes slice r].flatten ++ [Lexeme.punct ")", .punct ";"]

theorem reads_requestSlice (d : Nat) (slice r : String) :
    ReadsStatement (d + 1) (querySliceLexemes slice r) fun _ s =>
      IsSlice names depth declared (requestSlice slice r) s := by
  have hlinks : ReadsLinks (d + 1) (requestLexemes r) (Draws names depth declared .query {}
      ⟨none, none, some r, none⟩) := reads_request d r
  have hchain := ReadsExpr.chain (P := fun (Q : Expr → Prop) => Q)
    (.cons (ReadsExpr.text d slice) .nil) (by decide : Program.isCallable "query" = true) hlinks
  refine (ReadsStatement.expression hchain rfl (by decide)).mono ?_
  rintro doc s ⟨line, e, rfl, l, l', es, links, he, hes, hdraws⟩
  have hnamed : IsNamed slice none es := by
    rcases hes with _ | ⟨htext, _ | _⟩
    exact .cons htext .nil
  exact fun _ => answers_sliceOf (x := requestSlice slice r) he hnamed rfl hdraws

theorem reads_requestFlow (d : Nat) (flow slice r : String) :
    ReadsStatement (d + 3) (queryFlowLexemes flow slice r)
      (IsFlow names depth declared (requestFlow flow slice r)) := by
  have hname : List.Forall₂ (fun ls Q => ReadsExpr (d + 2) ls Q) [[.text flow]] [IsText flow] :=
    .cons (ReadsExpr.text (d + 2) flow) .nil
  have hslices : List.Forall₂ (fun ls y => ReadsStatement (d + 1) ls fun _ s =>
      IsSlice names depth declared y s) [querySliceLexemes slice r] [requestSlice slice r] :=
    .cons (reads_requestSlice d slice r) .nil
  have hblock := reads_block (by decide : Program.isCallable "flow" = true) (by decide) hname
    (by simp) hslices
  refine hblock.mono ?_
  rintro doc s ⟨line, e, rfl, l, l', es, b, rfl, hes, l'', ss, rfl, hss⟩
  have hnamed : IsNamed flow none es := by
    rcases hes with _ | ⟨htext, _ | _⟩
    exact .cons htext .nil
  exact isFlow_of_call (x := requestFlow flow slice r) hnamed hss

end Reading

/-- The lexemes of the flow up to its request. -/
def queryHeadLexemes (flow slice : String) : List Lexeme :=
  [.identifier "flow", .punct "(", .text flow, .punct ",", .punct "(", .punct ")", .punct "=>",
    .punct r"{", .identifier "query", .punct "(", .text slice, .punct ")"]

theorem lines_requestHead (flow slice : String) :
    Lines (requestHead flow slice)
      (importLexemes false ["flow", "gql", "query"] "@auto-engineer/flow" ++
        queryHeadLexemes flow slice) := by
  have himport : Line (importText false ["flow", "gql", "query"] "@auto-engineer/flow") _ :=
    Line.of_inline (inline_importText false (by decide) (by decide)) (by decide) (by decide)
  have hopen : Inline "flow(" [.identifier "flow", .punct "("] := Inline.of_check
  have hblock : Inline r", () => {"
      [.punct ",", .punct "(", .punct ")", .punct "=>", .punct r"{"] := Inline.of_check
  have hquery : Inline "  query(" [.identifier "query", .punct "("] := Inline.of_check
  have hflow := Line.of_inline ((hopen.append (Inline.quote flow) (Or.inl (by decide))).append
    hblock (Or.inr (by decide))) (isQuiet_append (isQuiet_append (by decide)))
    (isTidy_append (by decide))
  have hslice := Line.of_inline ((hquery.append (Inline.quote slice) (Or.inl (by decide))).append
    Inline.closeParen (Or.inr (by decide))) (isQuiet_append (isQuiet_append (by decide)))
    (isTidy_append (by decide))
  exact ⟨_, .cons himport (.cons Line.empty (.cons hflow (.cons hslice .nil))),
    by simp [queryHeadLexemes]⟩

theorem lines_requestEnd : Lines [r"});", ""] [.punct r"}", .punct ")", .punct ";"] := by
  have hclose : Inline r"});" [.punct r"}", .punct ")", .punct ";"] := Inline.of_check
  exact (Lines.one (Line.of_inline hclose (by decide) (by decide))).append (Lines.one Line.empty)

theorem code_requestFile (flow slice r : String) :
    Code (unlines (requestFile flow slice r)).toList
      (importLexemes false ["flow", "gql", "query"] "@auto-engineer/flow" ++
        queryFlowLexemes flow slice r) := by
  obtain ⟨la, hla, heqa⟩ := lines_requestHead flow slice
  obtain ⟨lb, hlb, heqb⟩ := lines_requestEnd
  have htemplate := code_template (inline_request (by decide : IsIndent "    "))
    Inline.callEnd r
  have hcode := code_unlines (List.rel_append (hla.imp fun _ _ h => h.code)
    (.cons htemplate (hlb.imp fun _ _ h => h.code)))
  rw [List.flatten_append, List.flatten_cons, ← heqa, ← heqb] at hcode
  simpa [requestFile, queryFlowLexemes, queryHeadLexemes, querySliceLexemes, requestLexemes,
    callbackLexemes, listed] using hcode

theorem quiet_requestFile (flow slice r : String) :
    ∃ b a, Skips (fun _ => True) (level 0 0) ((requestFile flow slice r).flatMap lines)
      (level b a) := by
  have hindent : IsIndent "    " := by decide
  exact quiet_lines_template (lines_requestHead flow slice) lines_requestEnd
    (quiet_template (inline_request hindent) Inline.callEnd
      (isQuiet_indent hindent (by decide)) (isInert_request hindent (by decide)) r)

theorem linesOf_requestFile (flow slice r : String) :
    linesOf (unlines (requestFile flow slice r)) =
      (requestFile flow slice (String.ofList (plainBreaks r.toList))).flatMap lines :=
  linesOf_template (lines_requestHead flow slice) lines_requestEnd (by simp [requestHead])
    (by simp) (by decide) ⟨by decide, by decide⟩ r

/-- Whatever the request is, its lines are read as the model. -/
theorem modelOf_requestFile (n : Nat) (flow slice r : String) :
    (programOf (n + 3) (unlines (requestFile flow slice r)).toList >>=
      modelOf { nestingLimit := n + 3 } {}) = .ok (requestModel flow slice r) := by
  have hcode : Documented (unlines (requestFile flow slice r)).toList
      (([(none, importLexemes false ["flow", "gql", "query"] "@auto-engineer/flow"),
        (none, queryFlowLexemes flow slice r)] : List Group).flatMap fun g => viewed g.1 g.2) := by
    simpa [viewed_none] using documented_of_code (code_requestFile flow slice r)
  have himport : ReadsStatement (n + 3)
      (importLexemes false ["flow", "gql", "query"] "@auto-engineer/flow") fun doc s =>
        doc = none → Adds { nestingLimit := n + 3 } [] (n + 3) {} {} s := by
    refine (ReadsStatement.imports (n + 3) false _ _).mono ?_
    rintro doc s ⟨line, specifiers, rfl, -⟩ -
    have hdsl : (false || ({} : Config).dslModules.contains "@auto-engineer/flow") = true := by
      decide
    exact adds_imports_nothing (by simp only [integrationNames, hdsl, if_true])
  have hflow : ReadsStatement (n + 3) (queryFlowLexemes flow slice r) fun doc s =>
      doc = none → Adds { nestingLimit := n + 3 } [] (n + 3) {}
        { flow := some (requestFlow flow slice r) } s := by
    have hreads : ReadsStatement (n + 3) _ (IsFlow [] (n + 3) {} _) :=
      reads_requestFlow n flow slice r
    refine hreads.mono ?_
    rintro doc s hs rfl
    exact adds_flow hs rfl
  obtain ⟨ss, hprogram, hadds⟩ := exists_programOf hcode (.cons himport (.cons hflow .nil))
  rw [hprogram]
  exact modelOf_adds hadds (by simp [allIntegrations]) (by simp [allFlows]) (by simp)

theorem requestModel_injective {flow slice r t : String}
    (h : requestModel flow slice r = requestModel flow slice t) : r = t := by
  simpa [requestModel, requestFlow, requestSlice] using h

theorem extract_requestFile (n : Nat) (flow slice r : String) :
    extract { nestingLimit := n + 3 } (unlines (requestFile flow slice r)) =
      .ok (requestModel flow slice (String.ofList (plainBreaks r.toList))) := by
  obtain ⟨b, a, hskips⟩ := quiet_requestFile flow slice (String.ofList (plainBreaks r.toList))
  rw [extract_of_skips (linesOf_requestFile flow slice r) hskips, unlines_flatMap_lines,
    modelOf_requestFile]

/-- A request comes back with its line breaks made plain, and unchanged just if they are plain. A
request is nested in three pairs of brackets. -/
theorem extract_generate_request (n : Nat) (flow slice r : String) :
    let config : Config := { nestingLimit := n + 3 }
    ∃ text, generate config (requestModel flow slice r) = .ok text ∧
      extract config text =
        .ok (requestModel flow slice (String.ofList (plainBreaks r.toList))) ∧
      (extract config text = .ok (requestModel flow slice r) ↔ ¬ ['\r', '\n'] <:+: r.toList) := by
  intro config
  have hextract := extract_requestFile n flow slice r
  refine ⟨_, generate_request _ flow slice r, hextract, ?_⟩
  rw [hextract, ← plainBreaks_eq_self_iff, Except.ok.injEq]
  refine ⟨fun h => ?_, fun h => by rw [h, String.ofList_toList]⟩
  simpa using congrArg String.toList (requestModel_injective h)

/-- The carriage return of the second line is lost. -/
theorem extract_generate_carriageReturn :
    ∃ text, generate {} (requestModel "F" "Q" "a\r\nb") = .ok text ∧
      extract {} text = .ok (requestModel "F" "Q" "a\nb") ∧
      requestModel "F" "Q" "a\nb" ≠ requestModel "F" "Q" "a\r\nb" := by
  have hplain : String.ofList (plainBreaks "a\r\nb".toList) = "a\nb" := by decide
  refine ⟨_, generate_request _ "F" "Q" "a\r\nb", ?_, fun h => ?_⟩
  · rw [← hplain]
    exact extract_requestFile _ "F" "Q" "a\r\nb"
  · exact absurd (requestModel_injective h) (by decide)

end EventFlow.Emission
