import EventFlow.Proofs.Emission.Entry
import EventFlow.Proofs.Emission.Lines

/-! The statements of a server and of a client, written and read.

A statement takes several lines, and the lines of its callback are statements again. `Says d ts P`
says that the lines `ts` are one statement with the property `P` to the grammar of depth `d`. The
parts of a slice are read off such statements one by one. -/

namespace EventFlow.Emission

open Extraction Text Token
open Program (ReadsExpr ReadsLinks ReadsStatement statementNames)

variable {m : Model} {declared : Declared} {d : Nat} {names ts : List String} {f indent : String}
  {kind : SliceKind}

/-- The lines are one statement, which has the given property with the comment above it. -/
def Says (d : Nat) (ts : List String) (P : Option String → Statement → Prop) : Prop :=
  ∃ ls, Lines ts ls ∧ ReadsStatement d ls P

theorem Says.mono {P Q : Option String → Statement → Prop} (h : Says d ts P)
    (hPQ : ∀ doc s, P doc s → Q doc s) : Says d ts Q := by
  obtain ⟨ls, hts, hreads⟩ := h
  exact ⟨ls, hts, hreads.mono hPQ⟩

/-- A statement that consists of an expression with the given property. -/
def IsValue (P : Expr → Prop) (doc : Option String) (s : Statement) : Prop :=
  ∃ line e, s = .expression line e doc ∧ P e

theorem head?_of_call {x : String} {ls : List Lexeme} (hf : isFullName f = true)
    (h : Inline (f ++ "(" ++ x) ls) : ls.head? = some (.identifier f) := by
  obtain ⟨placed, hplaced, hcode⟩ := h.code (.start 1)
  obtain ⟨c, w, hs, hc, hw⟩ := exists_of_isFullName hf
  have hlist : (f ++ "(" ++ x).toList = c :: (w ++ '(' :: x.toList) := by
    simp [String.toList_append, hs]
  have hname : String.ofList (c :: w) = f := by rw [← hs, String.ofList_toList]
  have hstop : ∀ y ∈ ('(' :: x.toList).head?, isNamePart y = false := by simp; decide
  have hat := pieceAt_name hc hw hstop
  rw [hlist] at hplaced
  unfold pieces at hplaced
  rw [hat] at hplaced
  obtain ⟨more, -, hplaced⟩ := bind_eq_ok.1 hplaced
  cases hplaced
  simp only [List.map_cons, codeOf] at hcode
  split at hcode
  · obtain ⟨ls, -, rfl⟩ := Option.map_eq_some_iff.1 hcode
    rw [hname]
    rfl
  · cases hcode

/-- A call as a statement of its own line. -/
theorem Says.of_writes {t x : String} {P : Expr → Prop} (h : Writes d t P) (ht : t = f ++ "(" ++ x)
    (hf : isFullName f = true) (hname : f ∉ statementNames)
    (hindent : IsIndent indent) (hquiet : isQuiet f = true) :
    Says d [indent ++ t ++ ";"] (IsValue P) := by
  obtain ⟨ls, hinline, hreads⟩ := h
  have hhead : ls.head? = some (.identifier f) := head?_of_call hf (ht ▸ hinline)
  refine ⟨ls ++ [.punct ";"], Lines.one (Line.of_inline
    ((inline_indent hindent hinline).append Inline.semicolon (Or.inr (by decide))) ?_
    (isTidy_append (by decide))), ReadsStatement.expression hreads hhead hname⟩
  rw [ht]
  exact isQuiet_append (isQuiet_indent hindent (isQuiet_append (isQuiet_append hquiet)))

/-! ## Statements with a callback -/

variable {α : Type} {P : α → Statement → Prop} {xs : List α}

/-- The lines are some statements one after the other, each with a property of its own. -/
def SaysAll (d : Nat) (ts : List String) (P : α → Statement → Prop) (xs : List α) : Prop :=
  ∃ lss, Lines ts lss.flatten ∧
    List.Forall₂ (fun ls x => ReadsStatement d ls fun _ s => P x s) lss xs

theorem SaysAll.append {a b : List String} {xs ys : List α} (ha : SaysAll d a P xs)
    (hb : SaysAll d b P ys) : SaysAll d (a ++ b) P (xs ++ ys) := by
  obtain ⟨la, hla, hxs⟩ := ha
  obtain ⟨lb, hlb, hys⟩ := hb
  exact ⟨la ++ lb, by simpa using hla.append hlb, List.rel_append hxs hys⟩

theorem SaysAll.of_says {x : α} (h : Says d ts fun _ s => P x s) : SaysAll d ts P [x] := by
  obtain ⟨ls, hts, hreads⟩ := h
  exact ⟨[ls], by simpa using hts, .cons hreads .nil⟩

theorem SaysAll.flatten {tss : List (List String)}
    (h : List.Forall₂ (fun ts x => Says d ts fun _ s => P x s) tss xs) :
    SaysAll d tss.flatten P xs := by
  induction h with
  | nil => exact ⟨[], Lines.nil, .nil⟩
  | cons hts _ ih => exact (SaysAll.of_says hts).append ih

/-- The callback of a call: a block of statements, each with its property. -/
def IsBlock (P : α → Statement → Prop) (xs : List α) (e : Expr) : Prop :=
  ∃ line ss, e = .block line ss ∧ List.Forall₂ (fun s x => P x s) ss xs

theorem listed_append {lss : List (List Lexeme)} (h : lss ≠ []) (ls : List Lexeme) :
    listed (lss ++ [ls]) = listed lss ++ .punct "," :: ls := by
  induction lss with
  | nil => exact absurd rfl h
  | cons ms lss ih =>
    cases lss with
    | nil => rfl
    | cons ns lss =>
      rw [List.cons_append, List.cons_append, listed_cons_cons, listed_cons_cons,
        ← List.cons_append, ih (by simp)]
      simp

theorem exists_concat {β : Type} {R : α → β → Prop} {as : List α} {bs : List β} {b : β}
    (h : List.Forall₂ R as (bs ++ [b])) :
    ∃ init a, as = init ++ [a] ∧ List.Forall₂ R init bs ∧ R a b := by
  induction bs generalizing as with
  | nil =>
    rcases h with _ | ⟨ha, _ | _⟩
    exact ⟨[], _, rfl, .nil, ha⟩
  | cons c bs ih =>
    rcases h with _ | ⟨hc, h⟩
    obtain ⟨init, a, rfl, hinit, ha⟩ := ih h
    exact ⟨_ :: init, a, rfl, .cons hc hinit, ha⟩

/-- A call whose last argument is a callback, to the parser. -/
theorem reads_block (hcallable : Program.isCallable f = true) (hname : f ∉ statementNames)
    {lss lbs : List (List Lexeme)} {Qs : List (Expr → Prop)}
    (hreads : List.Forall₂ (fun ls Q => ReadsExpr (d + 1) ls Q) lss Qs) (hne : lss ≠ [])
    (hbodies : List.Forall₂ (fun ls x => ReadsStatement d ls fun _ s => P x s) lbs xs) :
    ReadsStatement (d + 2) ([Lexeme.identifier f] ++ [Lexeme.punct "("] ++ listed lss ++
        [Lexeme.punct ","] ++ callbackLexemes lbs.flatten ++ [Lexeme.punct ")", .punct ";"])
      (IsValue fun e => ∃ line line' es b, e = .call line (.identifier line' f) (es ++ [b]) none ∧
        List.Forall₂ (fun e Q => Q e) es Qs ∧ IsBlock P xs b) := by
  -- one list of arguments, the last of which is the callback
  have hall : List.Forall₂ (fun ls (Q : Expr → Prop) => ReadsExpr (d + 1) ls Q)
      (lss ++ [callbackLexemes lbs.flatten]) (Qs ++ [IsBlock P xs]) :=
    List.rel_append hreads (.cons (ReadsExpr.function hbodies) .nil)
  have hcall := ReadsExpr.call (P := fun (Q : Expr → Prop) => Q) hall hcallable
  have hstatement := ReadsStatement.expression hcall rfl hname
  have hlexemes : [Lexeme.identifier f] ++ [Lexeme.punct "("] ++ listed lss ++
        [Lexeme.punct ","] ++ callbackLexemes lbs.flatten ++ [Lexeme.punct ")", .punct ";"] =
      (.identifier f :: .punct "(" :: listed (lss ++ [callbackLexemes lbs.flatten]) ++
        [Lexeme.punct ")"]) ++ [Lexeme.punct ";"] := by
    rw [listed_append hne]
    simp
  rw [hlexemes]
  refine hstatement.mono ?_
  rintro doc s ⟨line, e, rfl, l, l', es, rfl, hes⟩
  obtain ⟨init, b, rfl, hinit, hb⟩ := exists_concat hes
  exact ⟨line, _, rfl, l, l', init, b, rfl, hinit, hb⟩

/-- A call whose last argument is a callback, as a statement. -/
theorem says_block (hindent : IsIndent indent) (hf : isFullName f = true)
    (hcallable : Program.isCallable f = true) (hname : f ∉ statementNames)
    (hquiet : isQuiet f = true) {Qs : List (Expr → Prop)}
    (hts : List.Forall₂ (Writes (d + 1)) ts Qs) (hne : ts ≠ []) {body : List String}
    (hbody : SaysAll d body P xs) :
    Says (d + 2) (block indent (f ++ "(" ++ joinWith ", " ts ++ ", ") ");" body)
      (IsValue fun e => ∃ line line' es b, e = .call line (.identifier line' f) (es ++ [b]) none ∧
        List.Forall₂ (fun e Q => Q e) es Qs ∧ IsBlock P xs b) := by
  obtain ⟨lss, hinline, hreads⟩ := exists_between (R := Inline)
    (S := fun ls Q => ReadsExpr (d + 1) ls Q) hts
  obtain ⟨lbs, hlines, hbodies⟩ := hbody
  have hlne : lss ≠ [] := by
    rintro rfl
    cases hinline
    exact hne rfl
  have hheader := (((Inline.name hf).append Inline.openParen (Or.inr (by decide))).append
    (Inline.joinWith hinline) (Or.inl (closed_append (by decide)))).append Inline.comma
    (Or.inr (by decide))
  have hblock := (closable_block hindent hheader (closed_append (by decide))
    (isQuiet_append (isQuiet_append (isQuiet_append hquiet))) Inline.callEnd (by decide) hlines).1
  exact ⟨_, hblock, reads_block hcallable hname hreads hlne hbodies⟩

/-! ## Servers -/

/-- A statement that adds the given parts to a server. -/
def IsPart (names : List String) (depth : Nat) (declared : Declared) (kind : SliceKind)
    (x : List Spec × List Entry) (s : Statement) : Prop :=
  Answers names (serverPart depth declared kind s) x

theorem isIndent_append {a b : String} (ha : IsIndent a)
    (hb : IsIndent b) : IsIndent (a ++ b) := by
  rw [IsIndent, String.toList_append, List.all_append, ha, hb]
  rfl

theorem answers_specStatement {x : Spec} {doc : Option String} {s : Statement}
    (h : IsValue (IsSpec declared kind x) doc s) :
    Answers names (specStatement declared kind s) x := by
  obtain ⟨line, e, rfl, he⟩ := h
  exact he names

theorem renders_specLines (hm : m.NamesMessages) (hd : declared.Covers m) {x : Spec}
    (hfits : x.Fits m.HasMessage kind) (hpayload : ∀ y ∈ x.examples, y.data.IsPayload d)
    (hindent : IsIndent indent) (depth : Nat) :
    Renders (specLines m kind indent x) fun ts =>
      Says (d + 5) ts fun _ s => IsPart names depth declared kind ([x], []) s := by
  unfold specLines
  refine Renders.useFunction (by decide) ?_
  refine Renders.bind (renders_specChain hm hd hfits hpayload) ?_
  rintro chain ⟨hchain, f, hf, rest, rfl⟩
  refine Renders.pure ?_
  have hname : isFullName f = true ∧ f ∉ statementNames ∧ isQuiet f = true := by
    simp only [List.mem_cons, List.not_mem_nil, or_false] at hf
    rcases hf with rfl | rfl <;> decide
  have hbody : SaysAll (d + 3) [indent ++ "  " ++ (f ++ "(" ++ rest) ++ ";"]
      (fun x s => Answers names (specStatement declared kind s) x) [x] :=
    SaysAll.of_says ((Says.of_writes hchain rfl hname.1 hname.2.1
      (isIndent_append hindent (by decide)) hname.2.2).mono fun _ _ => answers_specStatement)
  have htitle : List.Forall₂ (Writes (d + 3 + 1)) [quote (specTitle kind)]
      [IsText (specTitle kind)] := .cons (Writes.text _ _) .nil
  have hblock := says_block (f := "specs") hindent (by decide) (by decide) (by decide) (by decide)
    htitle (by simp) hbody
  have hlines : block indent ("specs" ++ "(" ++ joinWith ", " [quote (specTitle kind)] ++ ", ")
      ");" [indent ++ "  " ++ (f ++ "(" ++ rest) ++ ";"] =
      [indent ++ "specs(" ++ quote (specTitle kind) ++ r", () => {",
        indent ++ "  " ++ (f ++ "(" ++ rest) ++ ";", indent ++ r"});"] := by
    have hopen : ("specs(" : String) = "specs" ++ "(" := rfl
    have harrow : (r", () => {" : String) = ", " ++ r"() => {" := rfl
    have hclose : (r"});" : String) = r"}" ++ ");" := rfl
    simp only [block, List.isEmpty_cons, Bool.false_eq_true, if_false, joinWith, hopen, harrow,
      hclose, String.append_assoc, List.cons_append, List.nil_append]
  rw [hlines] at hblock
  refine hblock.mono ?_
  rintro doc s ⟨line, e, rfl, l, l', es, b, rfl, hes, l'', ss, rfl, hss⟩
  rcases hes with _ | ⟨htext, _ | _⟩
  obtain ⟨l3, rfl⟩ := htext
  exact Answers.bind (Answers.lift rfl) (Answers.bind (Answers.mapM hss) (Answers.pure _))

theorem listed_comma {lss : List (List Lexeme)} (h : lss ≠ []) :
    listed lss ++ [.punct ","] = (lss.map (· ++ [.punct ","])).flatten := by
  induction lss with
  | nil => exact absurd rfl h
  | cons ls lss ih =>
    cases lss with
    | nil => simp [listed]
    | cons ms lss =>
      rw [listed_cons_cons, List.append_assoc, List.cons_append, ih (by simp)]
      simp

/-- The entries of a pipeline, one on each line. -/
theorem says_data {names : List String} {depth : Nat} (hindent : IsIndent indent)
    {xs : List Entry} (h : List.Forall₂ (fun t x => Writes d t (IsEntry names depth x)) ts xs)
    (hne : xs ≠ []) :
    Says (d + 2) ([indent ++ "data(["] ++ (ts.map fun t => indent ++ "  " ++ t ++ ",") ++
        [indent ++ "]);"]) fun _ s => IsPart names depth declared kind ([], xs) s := by
  obtain ⟨lss, hinline, hreads⟩ := exists_between (R := Inline)
    (S := fun ls x => ReadsExpr d ls (IsEntry names depth x)) h
  have hlne : lss ≠ [] := by
    rintro rfl
    cases hreads
    exact hne rfl
  have hopen : Inline "data([" [.identifier "data", .punct "(", .punct "["] := Inline.of_check
  have hcomma : Inline "," [.punct ","] := Inline.of_mem_marks (by decide)
  have hclose : Inline "]);" [.punct "]", .punct ")", .punct ";"] := Inline.of_check
  have hinner := isIndent_append (b := "  ") hindent (by decide)
  have hentries : Lines (ts.map fun t => indent ++ "  " ++ t ++ ",")
      (lss.map (· ++ [Lexeme.punct ","])).flatten := by
    refine ⟨_, ?_, rfl⟩
    rw [List.forall₂_map_left_iff, List.forall₂_map_right_iff]
    refine hinline.imp fun t ls ht => Line.of_inline
      ((inline_indent hinner ht).append hcomma (Or.inr (by decide))) ?_
      (isTidy_append (by decide))
    exact isQuiet_append (isQuiet_append (isQuiet_indent hindent (by decide)))
  have hfirst := Line.of_inline (inline_indent hindent hopen)
    (isQuiet_indent hindent (by decide)) (isTidy_append (by decide))
  have hlast := Line.of_inline (inline_indent hindent hclose)
    (isQuiet_indent hindent (by decide)) (isTidy_append (by decide))
  have hlines := ((Lines.one hfirst).append hentries).append (Lines.one hlast)
  have harray := ReadsExpr.array hreads (Or.inr ⟨rfl, hlne⟩)
  have hcall := ReadsExpr.call (P := fun (Q : Expr → Prop) => Q) (.cons harray .nil)
    (by decide : Program.isCallable "data" = true)
  have hstatement := ReadsStatement.expression hcall rfl (by decide)
  rw [← listed_comma hlne] at hlines
  refine ⟨_, hlines, ?_⟩
  have hlexemes : [Lexeme.identifier "data", .punct "(", .punct "["] ++
        (listed lss ++ [Lexeme.punct ","]) ++ [Lexeme.punct "]", .punct ")", .punct ";"] =
      (.identifier "data" :: .punct "(" :: listed
        [.punct "[" :: (listed lss ++ [Lexeme.punct ","]) ++ [Lexeme.punct "]"]] ++
          [Lexeme.punct ")"]) ++ [Lexeme.punct ";"] := by
    simp [listed]
  rw [hlexemes]
  refine hstatement.mono ?_
  rintro doc s ⟨line, e, rfl, l, l', es, rfl, hes⟩
  rcases hes with _ | ⟨⟨l'', es, rfl, hes⟩, _ | _⟩
  exact Answers.bind (Answers.mapM hes) (Answers.pure _)

theorem renders_dataLines (hm : m.NamesIntegrations) {xs : List Entry} (hne : xs ≠ [])
    (hlinked : ∀ x ∈ xs, x.Linked m.HasIntegration) (hproper : ∀ x ∈ xs, x.Proper (d + 1))
    (hnames : ∀ name, m.HasIntegration name → name ∈ names) (depth : Nat)
    (hindent : IsIndent indent) :
    Renders (dataLines m indent xs) fun ts =>
      Says (d + 4) ts fun _ s => IsPart names (depth + 2) declared kind ([], xs) s := by
  unfold dataLines
  refine Renders.useFunction (by decide) ?_
  refine Renders.bind (Renders.mapM (P := fun x line => ∃ t, line = indent ++ "  " ++ t ++ "," ∧
    Writes (d + 2) t (IsEntry names (depth + 2) x)) fun x hx => ?_) fun lines hlines => ?_
  · have hoffers := Entry.Linked.mono (hm.offers hnames) x (hlinked x hx)
    refine Renders.bind (renders_entryChain hoffers (hproper x hx) depth) fun t ht => ?_
    exact Renders.pure ⟨t, rfl, ht.1⟩
  · refine Renders.pure ?_
    obtain ⟨ts, hts, hwrites⟩ := exists_between hlines
    have hmap : lines = ts.map fun t => indent ++ "  " ++ t ++ "," := by
      clear hlines hwrites
      induction hts with
      | nil => rfl
      | cons h _ ih => rw [List.map_cons, ← h, ih]
    rw [hmap]
    exact says_data hindent hwrites hne

/-- The lines are some method calls with the given property; a semicolon may end them. -/
def Calls (d : Nat) (ts : List String) (Q : List Link → Prop) : Prop :=
  ∃ ls, Closable ts ls ∧ ReadsLinks d ls Q

theorem Calls.mono {P Q : List Link → Prop} (h : Calls d ts P) (hPQ : ∀ links, P links → Q links) :
    Calls d ts Q := by
  obtain ⟨ls, hts, hreads⟩ := h
  exact ⟨ls, hts, hreads.mono hPQ⟩

theorem Calls.nil (d : Nat) : Calls d [] (· = []) := ⟨[], Closable.nil, ReadsLinks.nil d⟩

theorem Calls.append {a b : List String} {P Q : List Link → Prop} (ha : Calls d a P)
    (hb : Calls d b Q) :
    Calls d (a ++ b) fun links => ∃ xs ys, links = xs ++ ys ∧ P xs ∧ Q ys := by
  obtain ⟨la, hla, hP⟩ := ha
  obtain ⟨lb, hlb, hQ⟩ := hb
  exact ⟨la ++ lb, hla.append hlb, hP.append hQ⟩

/-- A method that is called with a callback, and with a text after it if there is one. -/
theorem calls_block (hindent : IsIndent indent) {method : String}
    (hmethod : isFullName method = true) {body : List String} (hbody : SaysAll d body P xs)
    (text : Option String) :
    Calls (d + 2) (block indent ("." ++ method ++ "(")
        (((text.map fun s => ", " ++ quote s).getD "") ++ ")") body) fun links =>
      ∃ line b more, links = [⟨line, method, b :: more, none⟩] ∧ IsBlock P xs b ∧
        List.Forall₂ (fun e s => IsText s e) more text.toList := by
  obtain ⟨lbs, hlines, hbodies⟩ := hbody
  have hheader := (Inline.point hmethod).append Inline.openParen (Or.inr (by decide))
  have hclosed : closed ("." ++ method ++ "(") = true := closed_append (by decide)
  have hquiet : isQuiet ("." ++ method ++ "(") = true :=
    isQuiet_append (isQuiet_append (by decide))
  have hfunction := ReadsExpr.function hbodies
  cases text with
  | none =>
    have hblock := closable_block hindent hheader hclosed hquiet Inline.closeParen (by decide)
      hlines
    refine ⟨_, hblock, ?_⟩
    have hreads := ReadsLinks.method (P := fun (Q : Expr → Prop) => Q) (.cons hfunction .nil)
      (Or.inl rfl) method
    have hlexemes : Lexeme.punct "." :: .identifier method :: .punct "(" ::
        (listed [callbackLexemes lbs.flatten] ++ []) ++ [Lexeme.punct ")"] =
        [Lexeme.punct ".", .identifier method] ++ [Lexeme.punct "("] ++
          callbackLexemes lbs.flatten ++ [Lexeme.punct ")"] := by
      simp [listed]
    rw [← hlexemes]
    refine hreads.mono ?_
    rintro links ⟨line, es, rfl, hes⟩
    rcases hes with _ | ⟨hb, _ | _⟩
    exact ⟨line, _, [], rfl, hb, .nil⟩
  | some t =>
    have hfooter := (Inline.comma.append (Inline.quote t) (Or.inl (by decide))).append
      Inline.closeParen (Or.inr (by decide))
    have hblock := closable_block hindent hheader hclosed hquiet hfooter
      (isTidy_append (by decide)) hlines
    refine ⟨_, hblock, ?_⟩
    have hreads := ReadsLinks.method (P := fun (Q : Expr → Prop) => Q)
      (.cons hfunction (.cons (ReadsExpr.text (d + 1) t) .nil)) (Or.inl rfl) method
    have hlexemes : Lexeme.punct "." :: .identifier method :: .punct "(" ::
        (listed [callbackLexemes lbs.flatten, [.text t]] ++ []) ++ [Lexeme.punct ")"] =
        [Lexeme.punct ".", .identifier method] ++ [Lexeme.punct "("] ++
          callbackLexemes lbs.flatten ++
            ([Lexeme.punct ","] ++ [Lexeme.text t] ++ [Lexeme.punct ")"]) := by
      simp [listed]
    rw [← hlexemes]
    refine hreads.mono ?_
    rintro links ⟨line, es, rfl, hes⟩
    rcases hes with _ | ⟨hb, _ | ⟨ht, _ | _⟩⟩
    exact ⟨line, _, [_], rfl, hb, .cons ht .nil⟩

/-- The parts of a server, statement by statement. -/
def serverParts (x : Server) : List (List Spec × List Entry) :=
  (if x.data.isEmpty then [] else [([], x.data)]) ++ x.specs.map fun b => ([b], [])

theorem serverParts_flat (x : Server) :
    (serverParts x).flatMap (·.1) = x.specs ∧ (serverParts x).flatMap (·.2) = x.data := by
  have hspecs : ∀ bs : List Spec, (bs.map fun b => ([b], ([] : List Entry))).flatMap (·.1) = bs ∧
      (bs.map fun b => ([b], ([] : List Entry))).flatMap (·.2) = [] := by
    intro bs
    induction bs with
    | nil => exact ⟨rfl, rfl⟩
    | cons b bs ih => simp [ih.1]
  unfold serverParts
  rw [List.flatMap_append, List.flatMap_append, (hspecs _).1, (hspecs _).2]
  cases hdata : x.data <;> simp

/-- The method that says what a server does, or none for one that says nothing. -/
def AreServer (names : List String) (depth : Nat) (declared : Declared) (kind : SliceKind)
    (x : Server) (links : List Link) : Prop :=
  (x = Server.empty ∧ links = []) ∨ ∃ link, links = [link] ∧ link.method = "server" ∧
    Answers names (serverOf depth declared kind link) x

theorem isBare_iff {x : Server} : isBare x = true ↔ x = Server.empty := by
  obtain ⟨description, specs, data⟩ := x
  simp [isBare, Server.empty, Leaf.same, Json.same_text, and_assoc]

theorem answers_serverOf {depth : Nat} {x : Server} {line : Nat} {b : Expr} {more : List Expr}
    (hb : IsBlock (IsPart names depth declared kind) (serverParts x) b)
    (hmore : (x.description = "" ∧ more = []) ∨ ∃ e, more = [e] ∧ IsText x.description e) :
    Answers names (serverOf depth declared kind ⟨line, "server", b :: more, none⟩) x := by
  obtain ⟨l, ss, rfl, hss⟩ := hb
  obtain ⟨hspecs, hdata⟩ := serverParts_flat x
  have htail : ∀ description, description = x.description →
      Answers names (serverFrom declared kind depth description (.block l ss)) x := by
    rintro _ rfl
    refine Answers.bind (Answers.lift rfl) (Answers.bind (Answers.mapM hss) ?_)
    rw [hspecs, hdata]
    exact Answers.pure x
  rcases hmore with ⟨hnone, rfl⟩ | ⟨e, rfl, l', rfl⟩
  · exact Answers.bind (a := ("", Expr.block l ss)) (Answers.pure _) (htail "" hnone.symm)
  · refine Answers.bind (a := x.description) (Answers.lift rfl) ?_
    exact Answers.bind (a := (x.description, Expr.block l ss)) (Answers.pure _) (htail _ rfl)

theorem renders_serverFooter (description : String) :
    Renders (liftM (serverFooter description) : Emit String) fun footer =>
      footer = ((if description = "" then none else some description).map fun s =>
        ", " ++ quote s).getD "" ++ ")" := by
  unfold serverFooter
  by_cases h : description = ""
  · exact Renders.lift (a := ")") (if_pos (by rw [h]; rfl)) (by simp [h])
  · refine Renders.lift (a := ", " ++ quote description ++ ")") ?_ (by simp [h])
    rw [if_neg (by simpa [Json.isVoid] using h), quoted_text]
    rfl

theorem renders_serverLines (hm : m.NamesMessages) (hi : m.NamesIntegrations)
    (hd : declared.Covers m) {x : Server} (hfits : ∀ b ∈ x.specs, b.Fits m.HasMessage kind)
    (hpayload : ∀ b ∈ x.specs, ∀ y ∈ b.examples, y.data.IsPayload d)
    (hlinked : ∀ e ∈ x.data, e.Linked m.HasIntegration) (hproper : ∀ e ∈ x.data, e.Proper (d + 2))
    (hnames : ∀ name, m.HasIntegration name → name ∈ names) (depth : Nat)
    (hindent : IsIndent indent) :
    Renders (serverLines m kind indent x) fun ts =>
      Calls (d + 7) ts (AreServer names (depth + 2) declared kind x) := by
  have hinner := isIndent_append (b := "  ") hindent (by decide)
  unfold serverLines
  by_cases hbare : isBare x = true
  · rw [if_pos hbare]
    exact Renders.pure ((Calls.nil (d + 7)).mono fun links hlinks =>
      Or.inl ⟨isBare_iff.1 hbare, hlinks⟩)
  rw [if_neg hbare]
  -- what follows is the same with and without entries
  have hrest : ∀ data, SaysAll (d + 5) data (IsPart names (depth + 2) declared kind)
      (if x.data.isEmpty then [] else [([], x.data)]) → Renders (serverEnd m kind indent x data)
      fun ts => Calls (d + 7) ts (AreServer names (depth + 2) declared kind x) := by
    intro data hdata
    refine Renders.bind (Renders.mapM (P := fun b ts => Says (d + 5) ts fun _ s =>
      IsPart names (depth + 2) declared kind ([b], []) s) fun b hb =>
        renders_specLines hm hd (hfits b hb) (hpayload b hb) hinner (depth + 2))
      fun specs hspecs => ?_
    have hbody : SaysAll (d + 5) (data ++ specs.flatten) (IsPart names (depth + 2) declared kind)
        (serverParts x) := by
      refine hdata.append (SaysAll.flatten ?_)
      rw [List.forall₂_map_right_iff]
      exact hspecs
    refine Renders.bind (renders_serverFooter x.description) ?_
    rintro _ rfl
    have hcalls := calls_block hindent (by decide : isFullName "server" = true) hbody
      (if x.description = "" then none else some x.description)
    refine Renders.pure (hcalls.mono ?_)
    rintro links ⟨line, b, more, rfl, hb, hmore⟩
    refine Or.inr ⟨_, rfl, rfl, answers_serverOf hb ?_⟩
    by_cases hvoid : x.description = ""
    · rw [if_pos hvoid] at hmore
      cases hmore
      exact Or.inl ⟨hvoid, rfl⟩
    · rw [if_neg hvoid] at hmore
      rcases hmore with _ | ⟨he, _ | _⟩
      exact Or.inr ⟨_, rfl, he⟩
  by_cases hempty : x.data.isEmpty = true
  · rw [if_pos hempty] at hrest
    show Renders (if x.data.isEmpty = true then _ else _) _
    rw [if_pos hempty]
    exact Renders.bind (Renders.pure (P := (· = [])) rfl) fun _ h =>
      h ▸ hrest [] ⟨[], Lines.nil, .nil⟩
  · rw [if_neg hempty] at hrest
    show Renders (if x.data.isEmpty = true then _ else _) _
    rw [if_neg hempty]
    exact Renders.bind (renders_dataLines (d := d + 1) hi (by simpa using hempty) hlinked hproper
      hnames depth hinner) fun data hdata => hrest data (SaysAll.of_says hdata)

end EventFlow.Emission
