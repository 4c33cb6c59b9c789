import EventFlow.Emission.Message
import EventFlow.Proofs.Declaration.Field
import EventFlow.Proofs.Emission.Comment
import EventFlow.Proofs.Emission.Rendering
import EventFlow.Proofs.Json.RoundTrip

/-! Messages are declared as they are read.

The declaration of a message names it and its kind and has a line for each field, with a comment
above that gives the description and the default. Reading it gives the message:

    field  (tokens of the lines of f)  = ok f
    fields (tokens of all of them)     = ok fs
    meaning (tokens of the declaration) = ok (message m) -/

namespace EventFlow

open Declaration DocComment Text Token

/-- A field that can be declared: defaults nest at most `d` levels deep. -/
structure Field.Proper (d : Nat) (f : Field) : Prop where
  key : Inline.isCleanKey f.name = true
  type : isFieldType f.type = true
  description : ∀ s ∈ f.description, IsCanonical s
  start : f.default = .null → ∀ s ∈ f.description, '\n' ∉ s.toList → IsTrimmedStart s.toList
  exact : f.default.isExact = true
  depth : f.default.depth ≤ d
  closed : ¬ ['*', '/'] <:+: f.default.write.toList

/-- A message that can be declared, if its version is not too long to be written. -/
structure Message.Declarable (d : Nat) (m : Message) : Prop where
  name : isFullName m.name = true
  fields : ∀ f ∈ m.fields, f.Proper d
  distinct : (m.fields.map (·.name)).Nodup
  description : ∀ s ∈ m.description, IsCanonical s
  start : m.version = 1 → ∀ s ∈ m.description, '\n' ∉ s.toList → IsTrimmedStart s.toList
  version : 0 ≤ m.version

/-- A message that can be declared. -/
structure Message.Proper (d : Nat) (m : Message) : Prop extends m.Declarable d where
  short : m.version < Number.digitLimit

theorem Message.Proper.mono {m : Message} {d d' : Nat} (h : m.Proper d) (hle : d ≤ d') :
    m.Proper d' :=
  { h with fields := fun f hf =>
      { h.fields f hf with depth := Nat.le_trans (h.fields f hf).depth hle } }

theorem Message.Proper.exists_version {d : Nat} {m : Message} (h : m.Proper d) :
    ∃ n < Number.digitLimit, m.version = Int.ofNat n := by
  obtain ⟨n, hn⟩ := Int.eq_ofNat_of_zero_le h.version
  have hshort := h.short
  exact ⟨n, by omega, hn⟩

namespace Emission

variable {d : Nat} {f : Field} {m : Message}

/-! ## Comments on fields -/

/-- The tags of a field whose default can be written. -/
def fieldTags (f : Field) : List Tag :=
  if f.default = .null then [] else [⟨"default", f.default.write⟩]

theorem defaultTags_eq (h : f.default.isWritable = true) : defaultTags f = .ok (fieldTags f) := by
  rw [defaultTags, valueTags, if_pos h, fieldTags]
  split <;> rfl

theorem isFaithful_field (h : f.Proper d) :
    IsFaithful f.description (fieldTags f) := by
  have hplain : IsPlainTag ⟨"default", f.default.write⟩ := by
    obtain ⟨hline, hstart, hstop⟩ := Json.isTrimmed_write h.exact
    have hname : "default".toList.all (!isBlank ·) = true := by decide
    exact ⟨not_isBlank_of_all hname, hstart, hstop, hline⟩
  have htags : ∀ t ∈ fieldTags f, t = ⟨"default", f.default.write⟩ := by
    intro t ht
    unfold fieldTags at ht
    split at ht
    · cases ht
    · exact List.mem_singleton.1 ht
  refine ⟨h.description, fun t ht => htags t ht ▸ hplain, fun hempty => h.start ?_, fun t ht => ?_⟩
  · unfold fieldTags at hempty
    split at hempty
    · assumption
    · cases hempty
  · have hname : '*' ∉ "default".toList := by decide
    rw [htags t ht, infix_tagLine_iff]
    exact not_or.2 ⟨not_infix_pair hname, h.closed⟩

theorem fieldDoc_eq (h : f.Proper d) {token : Token}
    (hdoc : token.doc = docOf f.description (fieldTags f) "  ") :
    fieldDoc d f.name token = .ok (f.description, f.default) := by
  unfold fieldDoc
  rcases docOf_cases (isFaithful_field h) (show IsIndent "  " by decide) with
    ⟨hnone, htext, htags⟩ | ⟨raw, hraw, hparse⟩
  · have hnull : f.default = .null := by
      unfold fieldTags at htags
      split at htags
      · assumption
      · cases htags
    rw [hdoc, hnone, htext, hnull]
  · rw [hdoc, hraw]
    simp only [hparse]
    by_cases hnull : f.default = .null
    · simp [fieldTags, hnull, tagValue?]
    · simp [fieldTags, hnull, tagValue?, Json.readWithin_write h.exact h.depth]

/-! ## Lines of fields -/

/-- The line that declares a field. -/
def fieldLine (f : Field) : String :=
  "  " ++ propertyKey f.name ++ (if f.required then "" else "?") ++ ": " ++ f.type ++ ";"

theorem fieldLines_eq (h : f.default.isWritable = true) :
    fieldLines f = .ok (format f.description (fieldTags f) "  " ++ [fieldLine f]) := by
  have hcomment : commentLines f.description (fieldTags f) "  " =
      .ok (format f.description (fieldTags f) "  ") := by
    unfold commentLines
    cases f.description <;> rfl
  rw [fieldLines, defaultTags_eq h]
  show (commentLines f.description (fieldTags f) "  " >>= _) = _
  rw [hcomment]
  cases hr : f.required <;> simp [keyed, fieldLine, hr, Json.isVoid, Json.display] <;> rfl

/-- A field is written up to its type. -/
def fieldHead (f : Field) : String :=
  "  " ++ (propertyKey f.name ++ ((if f.required then "" else "?") ++ ": "))

def fieldMarks (f : Field) : List Lexeme :=
  (if f.required then [] else [.punct "?"]) ++ [.punct ":"]

theorem inline_fieldHead (h : Inline.isCleanKey f.name = true) :
    ∃ l, Inline.IsKey f.name l ∧ Inline (fieldHead f) (l :: fieldMarks f) := by
  have hmarks : Inline ((if f.required then "" else "?") ++ ": ") (fieldMarks f) := by
    unfold fieldMarks
    cases f.required <;> exact Inline.of_check
  obtain ⟨l, hl, hkey⟩ := Inline.key_append h hmarks
    (by cases f.required <;> rintro y ⟨⟩ <;> decide)
  exact ⟨l, hl, inline_indent (by decide) hkey⟩

theorem fieldLine_eq (f : Field) : fieldLine f = fieldHead f ++ (f.type ++ ";") := by
  simp only [fieldLine, fieldHead, String.append_assoc]

theorem closed_fieldHead (f : Field) : closed (fieldHead f) = true := by
  unfold fieldHead
  refine closed_append (closed_append ?_)
  cases f.required <;> decide

/-- A field line is the tokens of a name, a type and a semicolon. -/
theorem exists_field (h : f.Proper d) (here : Cursor) :
    ∃ key ts, Cuts here (fieldLine f).toList (docOf f.description (fieldTags f) "  ") (key :: ts)
        none ∧ fieldName? key = some f.name ∧
      ∀ source, Stands source here (fieldLine f).toList → ∀ seen, f.name ∉ seen →
        ∀ rest, field d source seen (key :: (ts ++ rest)) = .ok (f, rest) := by
  obtain ⟨l, hl, hhead⟩ := inline_fieldHead h.key
  obtain ⟨us, huscuts, husviews⟩ := hhead.code.cuts here (docOf f.description (fieldTags f) "  ")
  obtain ⟨vs, hvscuts, htype⟩ := exists_typeTokens h.type (here.advance (fieldHead f).toList)
  obtain ⟨ws, hwscuts, hwsviews⟩ := Inline.semicolon.code.cuts
    ((here.advance (fieldHead f).toList).advance f.type.toList) none
  rw [if_neg (by simp)] at huscuts hwscuts
  obtain ⟨key, marks, rfl, hkey, hmarks⟩ := List.map_eq_cons_iff.1 husviews
  obtain ⟨stop, tail, rfl, hstop, htail⟩ := List.map_eq_cons_iff.1 hwsviews
  obtain rfl := List.map_eq_nil_iff.1 htail
  have hlexeme : stop.lexeme = .punct ";" := congrArg (·.2) hstop
  have hname : fieldName? key = some f.name := by
    have hkeyed : key.lexeme = l := congrArg (·.2) hkey
    rcases hl with rfl | rfl <;> simp [fieldName?, hkeyed]
  have hmarked : marks.map (·.lexeme) = fieldMarks f := by
    have := congrArg (List.map (·.2)) hmarks
    simpa [List.map_map, Function.comp_def, view] using this
  have hdoc := fieldDoc_eq h (congrArg (·.1) hkey : key.doc = _)
  refine ⟨key, marks ++ (vs ++ [stop]), ?_, hname, fun source hstands seen hseen rest => ?_⟩
  · rw [fieldLine_eq, String.toList_append, String.toList_append]
    refine huscuts.append (hvscuts.append hwscuts (Or.inr (Or.inl (by simp; decide))))
      (Or.inr (Or.inr (closed_iff.1 (closed_fieldHead f))))
  · rw [fieldLine_eq, String.toList_append, String.toList_append] at hstands
    obtain ⟨htext, htokens⟩ := htype source hstands.right.left
    have hne : f.type ≠ "" := (exists_of_isFieldType h.type).choose_spec.2.2.1
    have hfield := field_eq hname hseen hmarked hlexeme (htokens stop rest hlexeme) htext hne hdoc
    simpa using hfield

/-! ## All fields -/

/-- All lines of a field. -/
def fieldBlock (f : Field) : List String :=
  format f.description (fieldTags f) "  " ++ [fieldLine f]

/-- Lines that go on below another one. -/
def below (ts : List String) : List Char := ts.flatMap fun t => '\n' :: t.toList

theorem below_append (a b : List String) : below (a ++ b) = below a ++ below b :=
  List.flatMap_append

theorem toList_unlines_cons (t : String) (ts : List String) :
    (unlines (t :: ts)).toList = t.toList ++ below ts := by
  induction ts generalizing t with
  | nil => simp [unlines, joinWith, below]
  | cons u ts ih =>
    rw [toList_unlines_cons_cons, ih]
    simp [below]

theorem below_of_ne_nil {ts : List String} (h : ts ≠ []) :
    below ts = '\n' :: (unlines ts).toList := by
  obtain ⟨t, ts, rfl⟩ := List.exists_cons_of_ne_nil h
  rw [toList_unlines_cons]
  rfl

/-- The comment above a field is kept for its name. -/
theorem cuts_below_comment {text : Option String} {tags : List Tag}
    (h : IsFaithful text tags) {indent : String}
    (hindent : IsIndent indent) (here : Cursor) :
    Cuts here (below (format text tags indent)) none [] (docOf text tags indent) := by
  unfold docOf
  split
  · next hsaid =>
    rw [format_of_nil hsaid]
    exact Cuts.nil here none
  · next hsaid =>
    rw [below_of_ne_nil (format_ne_nil hsaid)]
    exact Cuts.line (cuts_format hindent hsaid (h.sayable.endsOnce hindent) _ none)

theorem exists_fieldBlock (h : f.Proper d) (here : Cursor) :
    ∃ key ts, Cuts here (below (fieldBlock f)) none (key :: ts) none ∧
        fieldName? key = some f.name ∧
      ∀ source, Stands source here (below (fieldBlock f)) → ∀ seen, f.name ∉ seen →
        ∀ rest, field d source seen (key :: (ts ++ rest)) = .ok (f, rest) := by
  have hcomment := cuts_below_comment (isFaithful_field h)
    (by decide : IsIndent "  ") here
  let there := here.advance (below (format f.description (fieldTags f) "  "))
  obtain ⟨key, ts, hcuts, hname, hfield⟩ := exists_field h (there.advance ['\n'])
  have hbelow : below (fieldBlock f) =
      below (format f.description (fieldTags f) "  ") ++
        '\n' :: (fieldLine f).toList := by
    rw [fieldBlock, below_append]
    simp [below]
  rw [hbelow]
  refine ⟨key, ts, ?_, hname, fun source hstands => hfield source ?_⟩
  · exact hcomment.append (Cuts.line hcuts) (Or.inr (Or.inl (by simp; decide)))
  · exact (Stands.right (a := ['\n']) hstands.right)

theorem fields_cons {source : List Char} {fuel : Nat} {seen : List String} {key : Token}
    {ts rest : Tokens} {first : Field} {more : List Field} (hkey : fieldName? key = some first.name)
    (hfirst : field d source seen (key :: ts) = .ok (first, rest))
    (hmore : fields d source fuel (first.name :: seen) rest = .ok more) :
    fields d source (fuel + 1) seen (key :: ts) = .ok (first :: more) := by
  have hno : Tokens.isPunct (key :: ts) r"}" = false := by
    rw [Declaration.isPunct_cons]
    unfold fieldName? at hkey
    split at hkey <;> simp_all
  rw [fields, hno, hfirst]
  show (fields d source fuel (first.name :: seen) rest >>= _) = _
  rw [hmore]
  rfl

/-- The lines of all fields give back the fields, up to the brace that closes them. -/
theorem exists_fields (fs : List Field) (h : ∀ f ∈ fs, f.Proper d) (here : Cursor) :
    ∃ ts, Cuts here (below (fs.flatMap fieldBlock)) none ts none ∧ fs.length ≤ ts.length ∧
      ∀ source, Stands source here (below (fs.flatMap fieldBlock)) →
        ∀ seen, (fs.map (·.name)).Nodup → (∀ f ∈ fs, f.name ∉ seen) →
          ∀ stop rest fuel, stop.lexeme = .punct r"}" → fs.length < fuel →
            fields d source fuel seen (ts ++ stop :: rest) = .ok fs := by
  induction fs generalizing here with
  | nil =>
    refine ⟨[], Cuts.nil here none, Nat.le_refl _, ?_⟩
    intro source _ seen _ _ stop rest fuel hstop hfuel
    obtain ⟨fuel, rfl⟩ := Nat.exists_eq_succ_of_ne_zero (by omega : fuel ≠ 0)
    rw [List.nil_append, fields, if_pos (by simp [Declaration.isPunct_cons, hstop])]
  | cons f fs ih =>
    obtain ⟨key, ts, hcuts, hname, hfield⟩ := exists_fieldBlock (h f List.mem_cons_self) here
    obtain ⟨us, hcuts', hlen, hfields⟩ := ih (fun g hg => h g (List.mem_cons_of_mem _ hg))
      (here.advance (below (fieldBlock f)))
    have hstop : ∀ y ∈ (below (fs.flatMap fieldBlock)).head?, stopper y = true := by
      unfold below
      cases fs.flatMap fieldBlock with
      | nil => simp
      | cons t ts => simp; decide
    rw [List.flatMap_cons, below_append]
    refine ⟨key :: ts ++ us, hcuts.append hcuts' (Or.inr (Or.inl hstop)), ?_, ?_⟩
    · simp only [List.length_cons, List.length_append]
      omega
    · intro source hstands seen hnodup hseen stop rest fuel hclose hfuel
      obtain ⟨fuel, rfl⟩ := Nat.exists_eq_succ_of_ne_zero (by omega : fuel ≠ 0)
      rw [List.map_cons, List.nodup_cons] at hnodup
      have hmore := hfields source hstands.right (f.name :: seen) hnodup.2 (fun g hg hmem => by
        rcases List.mem_cons.1 hmem with heq | hmem
        · exact hnodup.1 (heq ▸ List.mem_map_of_mem hg)
        · exact hseen g (List.mem_cons_of_mem _ hg) hmem) stop rest fuel hclose
        (Nat.lt_of_succ_lt_succ hfuel)
      have hfirst := hfield source hstands.left seen (hseen f List.mem_cons_self)
        (us ++ stop :: rest)
      rw [List.append_assoc, List.cons_append]
      exact fields_cons hname hfirst hmore

/-! ## The comment on a message -/

/-- The tags of a message whose version can be written. -/
def messageTags (m : Message) : List Tag :=
  if m.version = 1 then [] else [⟨"version", Number.writeInt m.version⟩]

theorem versionTags_eq (m : Message) :
    versionTags m =
      if (Number.int m.version).isLong then .error .longNumber else .ok (messageTags m) := by
  have hsame : (Leaf.value m.version).same (.int 1) = decide (m.version = 1) := by
    simp [Json.int, Json.same, Json.number?, Number.same, beq_eq_decide]
  unfold versionTags messageTags valueTags
  dsimp only
  rw [hsame, Leaf.value_int, Json.int, Json.isWritable]
  by_cases hfirst : m.version = 1
  · have hshort : (Number.int 1).isLong = false := by decide +kernel
    simp [hfirst, hshort]
  · rw [Json.display, Json.shown, Number.write]
    · cases (Number.int m.version).isLong <;> simp [hfirst]
    · simp

theorem writeInt_ofNat (n : Nat) :
    (Number.writeInt (Int.ofNat n)).toList = Number.decimalChars n := by
  simp [Number.writeInt]

theorem isPlainTag_version (n : Nat) :
    IsPlainTag ⟨"version", Number.writeInt (Int.ofNat n)⟩ := by
  have hdigits : ∀ c ∈ (Number.writeInt (Int.ofNat n)).toList,
      isBlank c = false ∧ c ≠ '\n' := by
    intro c hc
    rw [writeInt_ofNat] at hc
    have hdigit := isDigit_of_mem_decimalChars hc
    have hpart := (isDigit_facts hdigit).1
    refine ⟨(isNamePart_facts hpart).1, ?_⟩
    rintro rfl
    exact absurd hdigit (by decide)
  have hname : "version".toList.all (!isBlank ·) = true := by decide
  refine ⟨not_isBlank_of_all hname, fun c hc => ?_,
    fun c hc => ?_, fun hmem => (hdigits _ hmem).2 rfl⟩
  · exact (hdigits c (List.mem_of_head? hc)).1
  · exact (hdigits c (List.mem_of_getLast? hc)).1

theorem isFaithful_message (h : m.Proper d) :
    IsFaithful m.description (messageTags m) := by
  obtain ⟨n, -, hn⟩ := h.exists_version
  have htags : ∀ t ∈ messageTags m, t = ⟨"version", Number.writeInt (Int.ofNat n)⟩ := by
    intro t ht
    unfold messageTags at ht
    split at ht
    · cases ht
    · rw [← hn]
      exact List.mem_singleton.1 ht
  refine ⟨h.description, fun t ht => htags t ht ▸ isPlainTag_version n, fun hempty => h.start ?_,
    fun t ht => ?_⟩
  · unfold messageTags at hempty
    split at hempty
    · assumption
    · cases hempty
  · have hname : '*' ∉ "version".toList := by decide
    rw [htags t ht, infix_tagLine_iff]
    refine not_or.2 ⟨not_infix_pair hname, fun hi => ?_⟩
    have hmem : '*' ∈ Number.decimalChars n := by
      rw [← writeInt_ofNat]
      exact hi.subset (by simp)
    exact absurd (isDigit_of_mem_decimalChars hmem) (by decide)

theorem version_eq (type : String) (line : Nat) {n : Nat} (h : n < Number.digitLimit) :
    version type line (Number.writeInt (Int.ofNat n)) = .ok (Int.ofNat n) := by
  have hdigits : ∀ c ∈ Number.decimalChars n, isDecimal c = true := fun c hc =>
    isDecimal_of_isDigit (isDigit_of_mem_decimalChars hc)
  have hne : (Number.decimalChars n).isEmpty = false := by
    simp [Number.decimalChars]
  have hdigit : (Number.decimalChars n).all isDigit = true :=
    List.all_eq_true.2 fun c hc => by simp [isDigit, hdigits c hc]
  have hlen := length_decimalChars_le h
  unfold version
  rw [writeInt_ofNat]
  simp [hne, hdigit, List.all_eq_true.2 hdigits, Nat.not_lt.2 hlen, ofDecimals_decimalChars]

/-- The comment above a declaration describes the message and gives its version. -/
theorem messageDoc_eq (h : m.Proper d) (type : String) (line : Nat) :
    messageDoc type line (docOf m.description (messageTags m) "") =
      .ok (m.description, m.version) := by
  obtain ⟨n, hlimit, hn⟩ := h.exists_version
  unfold messageDoc
  rcases docOf_cases (isFaithful_message h) (by decide : IsIndent "") with
    ⟨hnone, htext, htags⟩ | ⟨raw, hraw, hparse⟩
  · have hfirst : m.version = 1 := by
      unfold messageTags at htags
      split at htags
      · assumption
      · cases htags
    rw [hnone, htext, hfirst]
  · rw [hraw]
    simp only [hparse, messageTags]
    by_cases hfirst : m.version = 1
    · simp [tagValue?, hfirst]
    · have hversion := version_eq type line hlimit
      rw [← hn] at hversion
      simp [tagValue?, hfirst, hversion, bind, Except.bind, pure, Except.pure]

/-! ## Declarations -/

/-- A declaration up to the brace before its fields. -/
def messageHead (m : Message) : String :=
  "type " ++ m.name ++ " = " ++ m.kind.typeName ++ "<" ++ quote m.name ++ r", {"

/-- The lines of a declaration without the comment above it. -/
def messageCode (m : Message) : List String :=
  if m.fields.isEmpty then [messageHead m ++ r"}>;"]
  else messageHead m :: (m.fields.flatMap fieldBlock ++ [r"}>;"])

theorem messageCode_ne_nil (m : Message) : messageCode m ≠ [] := by
  unfold messageCode
  split <;> simp

/-- A message whose version is too long has no declaration. -/
theorem messageLines_of_long (h : m.Declarable d) (hlong : Number.digitLimit ≤ m.version) :
    messageLines m = .error .longNumber := by
  have hversion : (Number.int m.version).isLong = true := by
    rw [Number.isLong, decide_eq_true_iff]
    omega
  unfold messageLines
  rw [identifier_of_isFullName _ h.name, versionTags_eq, hversion]
  rfl

theorem messageLines_eq (h : m.Proper d) :
    messageLines m =
      .ok (format m.description (messageTags m) "" ++ messageCode m) := by
  have hcomment : commentLines m.description (messageTags m) "" =
      .ok (format m.description (messageTags m) "") := by
    unfold commentLines
    cases m.description <;> rfl
  have hfields : m.fields.mapM fieldLines = .ok (m.fields.map fieldBlock) :=
    mapM_ok (List.forall₂_map_right_iff.2 (List.forall₂_same.2 fun f hf =>
      fieldLines_eq (Json.isWritable_of_isExact (h.fields f hf).exact)))
  have hversion : (Number.int m.version).isLong = false := by
    have hnat := h.version
    have hshort := h.short
    rw [Number.isLong, decide_eq_false_iff_not]
    omega
  have hopen : (r", {" : String) = ", " ++ r"{" := rfl
  have hempty : ("{}>;" : String) = r"{" ++ r"}>;" := rfl
  unfold messageLines messageCode
  rw [identifier_of_isFullName _ h.name, versionTags_eq, hversion]
  show (commentLines m.description (messageTags m) "" >>= _) = _
  rw [hcomment]
  simp only [bind, Except.bind, pure, Except.pure, hfields, List.flatMap_def, messageHead, hopen,
    hempty, String.append_assoc]
  cases m.fields.isEmpty <;> simp

/-- The lexemes before the fields. -/
def headLexemes (m : Message) : List Lexeme :=
  [.identifier "type", .identifier m.name, .punct "=", .identifier m.kind.typeName, .punct "<",
    .text m.name, .punct ",", .punct r"{"]

theorem inline_messageHead (h : isFullName m.name = true) :
    Inline (messageHead m) (headLexemes m) := by
  have hkind : Inline (" = " ++ m.kind.typeName ++ "<")
      [.punct "=", .identifier m.kind.typeName, .punct "<"] := by
    cases m.kind <;> exact Inline.of_check
  have htype : Inline "type " [.identifier "type"] := Inline.of_check
  have hopen : Inline r", {" [.punct ",", .punct r"{"] := Inline.of_check
  have hname := Inline.name_append h hkind (by simp [String.toList_append]; decide)
  have hall := ((htype.append hname (Or.inl (by decide))).append (Inline.quote m.name)
    (Or.inr (Inline.stops_quote m.name))).append hopen (Or.inr (by decide))
  simpa [messageHead, headLexemes, String.append_assoc] using hall

/-- The brace after the fields, on the line of the last one or on its own. -/
def messageEnd (m : Message) : List Char :=
  if m.fields.isEmpty then r"}>;".toList else '\n' :: r"}>;".toList

theorem toList_messageCode (m : Message) : (unlines (messageCode m)).toList =
    (messageHead m).toList ++ (below (m.fields.flatMap fieldBlock) ++ messageEnd m) := by
  unfold messageCode messageEnd
  split
  · next hempty =>
    rw [List.isEmpty_iff.1 hempty]
    simp [unlines, joinWith, below, String.toList_append]
  · rw [toList_unlines_cons, below_append]
    simp [below]

/-- What the tokens of a declaration say. -/
theorem meaning_eq {source : List Char} {doc : Option String} {hs ts : Tokens}
    (hhs : hs.map (·.lexeme) = headLexemes m)
    (hfields : ∀ fuel, m.fields.length < fuel → fields d source fuel [] ts = .ok m.fields)
    (hlen : m.fields.length ≤ ts.length)
    (hdoc : ∀ type line, messageDoc type line doc = .ok (m.description, m.version)) :
    meaning d source doc (hs ++ ts) = .ok (.message m) := by
  obtain ⟨t1, hs, rfl, h1, hhs⟩ := List.map_eq_cons_iff.1 hhs
  obtain ⟨t2, hs, rfl, h2, hhs⟩ := List.map_eq_cons_iff.1 hhs
  obtain ⟨t3, hs, rfl, h3, hhs⟩ := List.map_eq_cons_iff.1 hhs
  obtain ⟨t4, hs, rfl, h4, hhs⟩ := List.map_eq_cons_iff.1 hhs
  obtain ⟨t5, hs, rfl, h5, hhs⟩ := List.map_eq_cons_iff.1 hhs
  obtain ⟨t6, hs, rfl, h6, hhs⟩ := List.map_eq_cons_iff.1 hhs
  obtain ⟨t7, hs, rfl, h7, hhs⟩ := List.map_eq_cons_iff.1 hhs
  obtain ⟨t8, hs, rfl, h8, hhs⟩ := List.map_eq_cons_iff.1 hhs
  obtain rfl := List.map_eq_nil_iff.1 hhs
  have hkind : MessageKind.ofTypeName? m.kind.typeName = some m.kind := by
    cases m.kind <;> decide
  have hname : Tokens.isName ([t1, t2, t3, t4, t5, t6, t7, t8] ++ ts) "export" = false := by
    simp [Tokens.isName, Token.isName, h1]
  have hmessage : ∀ type, message d source doc type m.kind (t6 :: t7 :: t8 :: ts) = .ok m := by
    intro type
    have hall := hfields (t6 :: t7 :: t8 :: ts).length (by simp only [List.length_cons]; omega)
    simp only [message, List.head?_cons, Option.bind_some, Token.text?, h6, Option.map_some,
      Tokens.next, List.tail_cons, isPunct_cons, h7, h8, hall, hdoc]
    rfl
  unfold meaning meaningOf
  rw [hname]
  simp [Tokens.next, isPunct_cons, h3, h4, h5, Token.name?, hkind, hmessage, bind, Except.bind,
    pure, Except.pure]

/-- A declaration is read as its message. -/
theorem exists_meaning (h : m.Proper d) (line : Nat) :
    ∃ ts, tokenizeFrom line (unlines (messageCode m)).toList = .ok ts ∧
      meaning d (unlines (messageCode m)).toList (docOf m.description (messageTags m) "") ts =
        .ok (.message m) := by
  let source := (unlines (messageCode m)).toList
  let here := Cursor.start line
  have hsource : source = (messageHead m).toList ++
      (below (m.fields.flatMap fieldBlock) ++ messageEnd m) := toList_messageCode m
  obtain ⟨hs, hscuts, hsviews⟩ := (inline_messageHead h.name).code.cuts here none
  obtain ⟨ts, htscuts, hlen, hfields⟩ := exists_fields m.fields h.fields
    (here.advance (messageHead m).toList)
  have hend : Code (messageEnd m) [.punct r"}", .punct ">", .punct ";"] := by
    unfold messageEnd
    split <;> exact Code.of_codeIn (by decide +kernel)
  obtain ⟨es, hescuts, hesviews⟩ := hend.cuts
    ((here.advance (messageHead m).toList).advance (below (m.fields.flatMap fieldBlock))) none
  have hstops : ∀ y ∈ (messageEnd m).head?, stopper y = true := by
    unfold messageEnd
    split <;> (simp; decide)
  have hclosed : closed (messageHead m) = true := closed_append (by decide)
  rw [if_neg (by simp [headLexemes])] at hscuts
  rw [if_neg (by simp)] at hescuts
  have hcuts := hscuts.append (htscuts.append hescuts (Or.inr (Or.inl hstops)))
    (Or.inr (Or.inr (closed_iff.1 hclosed)))
  rw [← hsource] at hcuts
  obtain ⟨last, htokens, -⟩ := hcuts.tokenizeFrom
  obtain ⟨stop, es, rfl, hstop, -⟩ := List.map_eq_cons_iff.1 hesviews
  have hstands : Stands source (here.advance (messageHead m).toList)
      (below (m.fields.flatMap fieldBlock)) := by
    have hall := Stands.start source line
    rw [hsource] at hall
    exact (hsource ▸ hall.right.left)
  refine ⟨_, htokens, ?_⟩
  have hlexemes : hs.map (·.lexeme) = headLexemes m := by
    have := congrArg (List.map (·.2)) hsviews
    rw [viewed_none, List.map_map, List.map_map] at this
    simpa [Function.comp_def, view] using this
  have hread : ∀ fuel, m.fields.length < fuel →
      fields d source fuel [] (ts ++ stop :: (es ++ [last])) = .ok m.fields := fun fuel hfuel =>
    hfields source hstands [] h.distinct (by simp) stop _ fuel (congrArg (·.2) hstop) hfuel
  have hmeaning := meaning_eq hlexemes hread
    (by rw [List.length_append]; omega) (messageDoc_eq h)
  simpa using hmeaning

end Emission

end EventFlow
