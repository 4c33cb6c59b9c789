import EventFlow.Emission.Literal
import EventFlow.Proofs.Token.Spelling

/-! Code on one line.

What an emitted expression looks like to the tokenizer: it spells some lexemes, has no line break
and no template. Texts are put together with `++` and `joinWith`; at each seam one of the two
sides must keep the lexemes apart.

    Inline a la → Inline b lb → closed a ∨ stops b → Inline (a ++ b) (la ++ lb) -/

namespace EventFlow.Token

open Emission Text

variable {s b a : String} {lb : List Lexeme}

def isTemplate : Lexeme → Bool
  | .template .. => true
  | _ => false

/-- The text spells the lexemes on one line and without templates. -/
structure Inline (s : String) (ls : List Lexeme) : Prop where
  code : Code s.toList ls
  flat : '\n' ∉ s.toList
  plain : ∀ l ∈ ls, isTemplate l = false

/-- Nothing continues the last lexeme of the text. -/
def closed (s : String) : Bool := s.toList.getLast?.any fun x => !sticky x

/-- The text continues nothing that stands before it. -/
def stops (s : String) : Bool := s.toList.head?.all stopper

theorem stops_iff : stops s = true ↔ ∀ y ∈ s.toList.head?, stopper y = true := by
  unfold stops
  cases s.toList.head? <;> simp

theorem closed_iff : closed s = true ↔ ∃ x ∈ s.toList.getLast?, sticky x = false := by
  unfold closed
  cases s.toList.getLast? <;> simp

theorem closed_append (h : closed b = true) : closed (a ++ b) = true := by
  rw [closed_iff] at h ⊢
  obtain ⟨x, hx, hs⟩ := h
  refine ⟨x, ?_, hs⟩
  rw [Option.mem_def] at hx
  simp [String.toList_append, List.getLast?_append, hx]

namespace Inline

/-- Texts on one line are joined where the seam is tight. -/
theorem append {la : List Lexeme} (ha : Inline a la) (hb : Inline b lb)
    (h : closed a = true ∨ stops b = true) : Inline (a ++ b) (la ++ lb) where
  code := by
    rw [String.toList_append]
    rcases h with h | h
    · exact ha.code.append_closed hb.code (closed_iff.1 h)
    · exact ha.code.append_stop hb.code (stops_iff.1 h)
  flat := by
    rw [String.toList_append, List.mem_append, not_or]
    exact ⟨ha.flat, hb.flat⟩
  plain := by
    intro l hl
    rcases List.mem_append.1 hl with hl | hl
    · exact ha.plain l hl
    · exact hb.plain l hl

theorem empty : Inline "" [] := ⟨Code.nil, by simp, by simp⟩

/-- Whether a fixed text spells the lexemes on one line. -/
def check (s : String) (ls : List Lexeme) : Bool :=
  codeIn s.toList == some ls && !s.toList.contains '\n' && ls.all (!isTemplate ·)

theorem of_check {ls : List Lexeme} (h : check s ls = true := by decide +kernel) :
    Inline s ls := by
  simp only [check, Bool.and_eq_true, beq_iff_eq, Bool.not_eq_true', List.all_eq_true] at h
  refine ⟨Code.of_codeIn h.1.1, ?_, h.2⟩
  have := h.1.2
  rw [← Bool.not_eq_true, List.contains_iff_mem] at this
  exact this

theorem blanks (h : IsIndent s) : Inline s [] where
  code := by
    refine Code.blanks (List.all_eq_true.2 fun c hc => ?_)
    have := List.all_eq_true.1 h c hc
    rw [decide_eq_true_eq] at this
    exact this ▸ by decide
  flat := by
    intro hmem
    have := List.all_eq_true.1 h _ hmem
    simp at this
  plain := by simp

/-! ## Punctuation -/

/-- The punctuation that joins other texts, with the blanks around it. -/
def marks : List (String × List Lexeme) :=
  [("(", [.punct "("]), (")", [.punct ")"]), (";", [.punct ";"]),
    (");", [.punct ")", .punct ";"]), (", ", [.punct ","]), (": ", [.punct ":"]),
    (r"{ ", [.punct r"{"]), (r" }", [.punct r"}"]), (r"}", [.punct r"}"]),
    (" | ", [.punct "|"]), ("; ", [.punct ";"]), (">()", [.punct ">", .punct "(", .punct ")"]),
    ("[", [.punct "["]), ("]", [.punct "]"]), (r"{", [.punct r"{"]), (">", [.punct ">"]),
    (",", [.punct ","])]

theorem of_mem_marks {ls : List Lexeme} (h : (s, ls) ∈ marks) : Inline s ls := by
  have hmarks : ∀ m ∈ marks, check m.1 m.2 = true := by decide +kernel
  exact of_check (hmarks (s, ls) h)

theorem openParen : Inline "(" [.punct "("] := of_mem_marks (by decide)

theorem closeParen : Inline ")" [.punct ")"] := of_mem_marks (by decide)

theorem semicolon : Inline ";" [.punct ";"] := of_mem_marks (by decide)

theorem callEnd : Inline ");" [.punct ")", .punct ";"] := of_mem_marks (by decide)

theorem comma : Inline ", " [.punct ","] := of_mem_marks (by decide)

theorem colon : Inline ": " [.punct ":"] := of_mem_marks (by decide)

theorem openBrace : Inline r"{ " [.punct r"{"] := of_mem_marks (by decide)

theorem closeBrace : Inline r" }" [.punct r"}"] := of_mem_marks (by decide)

theorem blockEnd : Inline r"}" [.punct r"}"] := of_mem_marks (by decide)

/-! ## Single lexemes -/

theorem newline_not_mem_quotedChar (c : Char) : '\n' ∉ quotedChar c := by
  have hhex : ∀ width n, '\n' ∉ toHexs width n := by
    intro width n hmem
    have := List.all_eq_true.1 (all_isHex_toHexs width n) _ hmem
    exact absurd this (by decide)
  have hunicode : '\n' ∉ ['\\', 'u'] ++ toHexs 4 c.toNat := by simp [hhex]
  have hcontrol : '\n' ∉ ['\\', 'x'] ++ toHexs 2 c.toNat := by simp [hhex]
  by_cases hn : c = '\n'
  · subst hn
    decide
  have hself : '\n' ∉ [c] := by simpa using Ne.symm hn
  unfold quotedChar
  grind

theorem quote (s : String) : Inline (quote s) [.text s] where
  code := by simpa using Code.text s Code.nil
  flat := by
    rw [Emission.quote, String.toList_ofList]
    simp only [Emission.quotedChars, List.cons_append, List.mem_cons, List.mem_append,
      List.mem_flatMap, List.not_mem_nil, or_false, not_or, not_exists, not_and]
    exact ⟨by decide, fun c _ => newline_not_mem_quotedChar c, by decide⟩
  plain := by simp [isTemplate]

theorem verbatim (h : isVerbatim s = true) : Inline ("'" ++ s ++ "'") [.text s] where
  code := by
    have hlist : ("'" ++ s ++ "'").toList = '\'' :: ((s.toList ++ ['\'']) ++ []) := by
      simp [String.toList_append]
    rw [hlist]
    exact Code.verbatim h Code.nil
  flat := by
    have hno : '\n' ∉ s.toList := fun hmem => by simpa using List.all_eq_true.1 h _ hmem
    simp [String.toList_append, hno]
  plain := by simp [isTemplate]

theorem newline_not_mem_of_isFullName (h : isFullName s = true) :
    '\n' ∉ s.toList := fun hmem =>
  absurd (isNamePart_of_mem h hmem) (by decide)

/-- A name in front of code that does not go on with it. -/
theorem name_append {s : String} (hs : isFullName s = true) (hb : Inline b lb)
    (hhead : ∀ y ∈ b.toList.head?, isNamePart y = false) :
    Inline (s ++ b) (.identifier s :: lb) where
  code := by
    rw [String.toList_append]
    exact Code.name hs hhead hb.code
  flat := by
    rw [String.toList_append, List.mem_append, not_or]
    exact ⟨newline_not_mem_of_isFullName hs, hb.flat⟩
  plain := by
    intro l hl
    rcases List.mem_cons.1 hl with rfl | hl
    · rfl
    · exact hb.plain l hl

theorem name (h : isFullName s = true) : Inline s [.identifier s] := by
  have := name_append h empty (by simp)
  rwa [String.append_empty] at this

theorem pieceAt_point {rest : List Char} (h : ∃ c ∈ rest.head?, isNameStart c = true) :
    pieceAt '.' rest = .ok (.lexeme (.punct "."), 1) := by
  obtain ⟨c, hc, hstart⟩ := h
  obtain ⟨-, hmarks, hdigit⟩ := isNamePart_facts (isNamePart_of_isNameStart hstart)
  obtain ⟨t, rfl⟩ : ∃ t, rest = c :: t := by
    cases rest with
    | nil => cases hc
    | cons d t => exact ⟨t, by simpa using hc⟩
  have hpoint : '.' ≠ c := by
    rintro rfl
    exact absurd hstart (by decide)
  refine pieceAt_eq_ok_iff.2 (.lexeme rfl rfl (.punct rfl ?_ rfl ?_))
  · have hself : isDigit '.' = false := by decide
    simp [startsNumber, hdigit hstart, hself]
  · simp [punctAt?, longMarks, startsWith, stripStart, hpoint]
    decide

/-- A name after a point. -/
theorem point (hs : isFullName s = true) : Inline ("." ++ s) [.punct ".", .identifier s] := by
  have hstart : ∃ c ∈ s.toList.head?, isNameStart c = true := by
    obtain ⟨c, w, hcs, hc, -⟩ := exists_of_isFullName hs
    exact ⟨c, by rw [hcs]; rfl, hc⟩
  refine ⟨?_, ?_, by simp [isTemplate]⟩
  · rw [String.toList_append]
    exact Code.cons (pieceAt_point hstart) rfl (name hs).code
  · rw [String.toList_append, List.mem_append, not_or]
    exact ⟨by decide, (name hs).flat⟩

/-- A name as a member of another. -/
theorem member (ha : isFullName a = true) (hb : isFullName b = true) :
    Inline (a ++ "." ++ b) [.identifier a, .punct ".", .identifier b] := by
  rw [String.append_assoc]
  refine name_append ha (point hb) ?_
  rw [String.toList_append]
  intro y hy
  have : y = '.' := by simpa using hy.symm
  exact this ▸ by decide

theorem pieceAt_minus (rest : List Char) :
    pieceAt '-' rest = .ok (.lexeme (.punct "-"), 1) := by
  refine pieceAt_eq_ok_iff.2 (.lexeme rfl rfl (.punct rfl ?_ rfl ?_))
  · have hdigit : isDigit '-' = false := by decide
    simp [startsNumber, hdigit]
  · simp [punctAt?, longMarks, startsWith, stripStart]
    decide

/-- An integer with its sign before it. -/
def intLexemes (i : Int) : List Lexeme :=
  if i < 0 then [.punct "-", .number (.int i.natAbs)] else [.number (.int i.natAbs)]

/-- An integer that is not too long, with its sign. -/
theorem int {i : Int} (h : i.natAbs < Number.digitLimit) :
    Inline (Number.writeInt i) (intLexemes i) := by
  have hnat : Code (Number.decimalChars i.natAbs) [.number (.int i.natAbs)] := by
    have hend : ∀ y ∈ ([] : List Char).head?, stopper y = true := by simp
    simpa using Code.nat h hend Code.nil
  have hflat : '\n' ∉ Number.decimalChars i.natAbs := fun hmem =>
    absurd (isDigit_of_mem_decimalChars hmem) (by decide)
  unfold Number.writeInt intLexemes
  by_cases hi : i < 0
  · rw [if_pos hi, if_pos hi]
    refine ⟨?_, by simpa using hflat, by simp [isTemplate]⟩
    rw [String.toList_ofList]
    exact Code.cons (pieceAt_minus _) rfl hnat
  · rw [if_neg hi, if_neg hi, List.nil_append]
    exact ⟨by simpa using hnat, by simpa using hflat, by simp [isTemplate]⟩

/-! ## Keys -/

/-- A key is spelled as a name or as a text. -/
def IsKey (s : String) (l : Lexeme) : Prop := l = .identifier s ∨ l = .text s

/-- A text that does not look like a name followed by a line break. -/
def isCleanKey (s : String) : Bool := !isIdentifier s || isFullName s

theorem closed_quote (s : String) : closed (Emission.quote s) = true := by
  rw [closed_iff, Emission.quote, String.toList_ofList]
  exact ⟨'\'', List.getLast?_concat, by decide⟩

theorem stops_quote (s : String) : stops (Emission.quote s) = true := by
  rw [stops_iff, Emission.quote, String.toList_ofList]
  intro y hy
  have : y = '\'' := by simpa using hy.symm
  exact this ▸ by decide

/-- A key in quotes or as it is, and what follows it. -/
theorem key_append {s : String} (hs : isCleanKey s = true) (hb : Inline b lb)
    (hhead : ∀ y ∈ b.toList.head?, isNamePart y = false) :
    ∃ l, IsKey s l ∧ Inline (propertyKey s ++ b) (l :: lb) := by
  unfold isCleanKey at hs
  unfold propertyKey
  by_cases hid : isIdentifier s = true
  · rw [if_pos hid]
    exact ⟨_, Or.inl rfl, name_append (by simpa [hid] using hs) hb hhead⟩
  · rw [if_neg hid]
    exact ⟨_, Or.inr rfl, (quote s).append hb (Or.inl (closed_quote s))⟩

end Inline

/-! ## Lists -/

/-- Lists of lexemes with a comma between them. -/
def listed : List (List Lexeme) → List Lexeme
  | [] => []
  | [ls] => ls
  | ls :: rest => ls ++ .punct "," :: listed rest

theorem listed_cons_cons (ls ms : List Lexeme) (rest : List (List Lexeme)) :
    listed (ls :: ms :: rest) = ls ++ .punct "," :: listed (ms :: rest) := rfl

theorem Inline.joinWith {ts : List String} {lss : List (List Lexeme)}
    (h : List.Forall₂ Inline ts lss) : Inline (joinWith ", " ts) (listed lss) := by
  induction h with
  | nil => exact Inline.empty
  | @cons t ls ts lss ht hts ih =>
    cases hts with
    | nil => exact ht
    | cons ht' hts =>
      rw [joinWith_cons_cons, listed_cons_cons, List.append_cons]
      exact (ht.append Inline.comma (Or.inr (by decide))).append ih
        (Or.inl (closed_append (by decide)))

end EventFlow.Token
