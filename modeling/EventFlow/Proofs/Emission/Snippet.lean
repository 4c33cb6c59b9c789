import EventFlow.Proofs.Emission.Writing
import EventFlow.Proofs.Program.Depth
import EventFlow.Proofs.Token.Documented

/-! One expression as a whole program.

An expression that is written at every depth of the grammar from some on is a program of one
statement, since a program is never nested deeper than it has tokens:

    (∀ d ≥ d₀, Writes d t P)  →  t parses to one expression statement, with P of its expression

A statement may begin with a name of its own, so the text must not begin like one of these. -/

namespace EventFlow.Emission

open Program
open Token (Inline Code Piece codeOf pieceAt pieces view viewed)

variable {ls : List Lexeme} {t : String}

/-! ## The first lexeme -/

/-- A name begins with the first character of the text that it is read from. -/
theorem head?_of_pieceAt {c : Char} {rest : List Char} {name : String} {n : Nat}
    (h : pieceAt c rest = .ok (.lexeme (.identifier name), n)) : name.toList.head? = some c := by
  cases Token.pieceAt_eq_ok_iff.1 h with
  | lexeme _ _ hl =>
    cases hl with
    | name => rw [String.toList_ofList, List.head?_cons]

/-- A character that no statement of another form begins with. -/
def isOpening (c : Char) : Bool :=
  !Text.isBlank c && statementNames.all fun name => name.toList.head? ≠ some c

/-- The text does not begin like a statement of another form. -/
def opens (t : String) : Bool := t.toList.head?.any isOpening

theorem opens_append {a : String} (h : opens a = true) (b : String) : opens (a ++ b) = true := by
  unfold opens at h ⊢
  rw [String.toList_append, List.head?_append]
  cases hc : a.toList.head? with
  | none =>
    rw [hc] at h
    cases h
  | some c =>
    rw [hc] at h
    exact h

theorem head?_of_opens (ht : opens t = true) (h : Inline t ls) :
    ∀ name ∈ statementNames, ls.head? ≠ some (.identifier name) := by
  intro name hname hls
  obtain ⟨c, hc, hopening⟩ := (Option.any_eq_true _ _).1 ht
  simp only [isOpening, Bool.and_eq_true, Bool.not_eq_true', List.all_eq_true,
    decide_eq_true_eq] at hopening
  obtain ⟨hblank, hother⟩ := hopening
  obtain ⟨rest, hrest⟩ := List.head?_eq_some_iff.1 hc
  obtain ⟨placed, hplaced, hcode⟩ := h.code (.start 1)
  rw [hrest] at hplaced
  cases Token.pieces_eq_ok_iff.1 hplaced with
  | @cons _ _ _ piece n more hpiece =>
    cases piece with
    | blank =>
      rw [(Token.pieceAt_blank hpiece).1] at hblank
      cases hblank
    | remark => cases hcode
    | comment raw => cases hcode
    | lexeme l =>
      simp only [List.map_cons, codeOf] at hcode
      split at hcode
      · obtain ⟨ls, -, rfl⟩ := Option.map_eq_some_iff.1 hcode
        cases hls
        exact hother name hname (head?_of_pieceAt hpiece)
      · cases hcode

/-! ## Programs -/

/-- The stream of a text that spells some lexemes: these lexemes without comments, and the end. -/
theorem exists_stream (h : Inline t ls) :
    ∃ tokens us last, Token.tokenize t = .ok tokens ∧ stream tokens = us ++ [last] ∧
      Stream.lexemes us = ls ∧ (∀ u ∈ us, u.token.doc = none) ∧ last.token.lexeme = .eof := by
  obtain ⟨cut, hcuts, hviews⟩ := h.code.cuts (.start 1) none
  obtain ⟨eof, htokens, heof⟩ := hcuts.tokenizeFrom
  obtain ⟨us, ends, hstream, rfl, hends⟩ :=
    List.map_eq_append_iff.1 (map_token_stream (cut ++ [eof]))
  obtain ⟨last, more, rfl, rfl, hnil⟩ := List.map_eq_cons_iff.1 hends
  obtain rfl := List.map_eq_nil_iff.1 hnil
  rw [List.map_map, Token.viewed_none] at hviews
  refine ⟨_, us, last, htokens, hstream, ?_, fun u hu => ?_, heof⟩
  · have hseconds := congrArg (List.map (·.2)) hviews
    simpa [Stream.lexemes, view, Function.comp_def] using hseconds
  · have hmem : view u.token ∈ ls.map (none, ·) := by
      rw [← hviews]
      exact List.mem_map_of_mem hu
    obtain ⟨l, -, hl⟩ := List.mem_map.1 hmem
    exact (congrArg (·.1) hl).symm

/-- An expression up to the end of the text. -/
theorem statements_of_reads {d : Nat} {P : Expr → Prop} (h : ReadsExpr d ls P)
    (hnames : ∀ name ∈ statementNames, ls.head? ≠ some (.identifier name)) (source : List Char)
    {us : Stream} {last : Lexed} (hus : us.lexemes = ls) (hdoc : ∀ u ∈ us, u.token.doc = none)
    (hlast : last.token.lexeme = .eof) :
    ∃ line e, statements (grammar source d) (us ++ [last]).length (us ++ [last]) =
      .ok [.expression line e none] ∧ P e := by
  obtain ⟨e, he, hP⟩ := h.reads source us [last] hus (Ends.of_eof hlast)
  have heof : Stream.isEof (us ++ [last]) = false := isEof_of_starts h.starts hus _
  have hmark : Stream.isPunct (us ++ [last]) ";" = false :=
    isPunct_of_starts h.starts hus _ rfl
  obtain ⟨l, hl, -⟩ := h.starts
  have hcons : us.lexemes = l :: ls.tail := hus.trans (List.cons_head?_tail hl).symm
  obtain ⟨t, us, rfl, ht, -⟩ := lexemes_eq_cons hcons
  have hnames' : ∀ name ∈ statementNames, Stream.isName (t :: us ++ [last]) name = false := by
    intro name hname
    rw [List.cons_append, isName_cons, ht, beq_eq_false_iff_ne]
    rintro rfl
    exact hnames name hname hl
  have hend : endStatement [last] = .ok ((), [last]) := by
    simp [endStatement, isPunct_cons, isEof_cons, hlast]
  have hfuel : (t :: us ++ [last]).length = us.length + 2 := by simp
  refine ⟨t.token.line, e, ?_, hP⟩
  rw [hfuel, statements, if_neg (Bool.eq_false_iff.1 heof),
    statement_of_expression he hend hmark hnames']
  show (statements (grammar source d) (us.length + 1) [last] >>= _) = _
  rw [statements, if_pos (by simp [isEof_cons, hlast])]
  show Except.ok [Statement.expression t.token.line e t.token.doc] = _
  rw [hdoc t List.mem_cons_self]

/-- What is written at all large depths is a program of one expression. -/
theorem parses_of_writes {P : Expr → Prop} {d₀ : Nat} (h : ∀ d, d₀ ≤ d → Writes d t P)
    (ht : opens t = true) :
    ∃ line e, Parses t [.expression line e none] ∧ P e := by
  obtain ⟨tokens, htokens⟩ : ∃ tokens, Token.tokenize t = .ok tokens := by
    obtain ⟨ls, hls, -⟩ := h d₀ (Nat.le_refl d₀)
    obtain ⟨tokens, us, last, htokens, -⟩ := exists_stream hls
    exact ⟨tokens, htokens⟩
  obtain ⟨ls, hls, hreads⟩ := h (max d₀ tokens.length) (Nat.le_max_left _ _)
  obtain ⟨tokens', us, last, htokens', hstream, hlexemes, hdoc, hlast⟩ := exists_stream hls
  obtain rfl : tokens = tokens' := Except.ok.inj (htokens.symm.trans htokens')
  obtain ⟨line, e, he, hP⟩ := statements_of_reads hreads (head?_of_opens ht hls) t.toList
    hlexemes hdoc hlast
  rw [← hstream, length_stream] at he
  refine ⟨line, e, ⟨tokens, htokens, ?_⟩, hP⟩
  rw [← parseWithin_eq_parse t.toList (Nat.le_max_right d₀ _)]
  exact he

end EventFlow.Emission
