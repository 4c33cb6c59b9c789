import EventFlow.Proofs.Token.Locality
import EventFlow.Proofs.Token.Quoted
import Mathlib.Data.List.Forall2

/-! Texts that spell a list of lexemes.

A text is code for some lexemes if it is cut into these and blanks, wherever it stands. Code is put
together from code at every tight seam:

    Code a la → Code b lb → Tight a b → Code (a ++ b) (la ++ lb)

What the tokenizer makes of whole texts follows from this and from the spelling of names, texts,
templates and numbers. -/

namespace EventFlow.Token

open Emission Text

variable {la lb ls : List Lexeme} {c : Char} {rest cs w : List Char} {s : String}

/-! ## Code -/

/-- The lexemes of some pieces, if there are only blanks beside them and nothing that depends on
what follows. -/
def codeOf : List Piece → Option (List Lexeme)
  | [] => some []
  | .blank :: ps => codeOf ps
  | .lexeme l :: ps => if isPlain l then (codeOf ps).map (l :: ·) else none
  | _ :: _ => none

/-- The text is cut into the given lexemes and blanks, wherever it stands. -/
def Code (cs : List Char) (ls : List Lexeme) : Prop :=
  ∀ here, ∃ placed, pieces here cs = .ok placed ∧ codeOf (placed.map (·.piece)) = some ls

theorem codeOf_append {a b : List Piece} (ha : codeOf a = some la) (hb : codeOf b = some lb) :
    codeOf (a ++ b) = some (la ++ lb) := by
  fun_induction codeOf a generalizing la with
  | case1 => simp_all
  | case2 ps ih => exact ih ha
  | case3 l ps hplain ih =>
    obtain ⟨more, hmore, rfl⟩ := Option.map_eq_some_iff.1 ha
    simp [codeOf, hplain, ih hmore]
  | case4 => cases ha
  | case5 => cases ha

theorem isPlain_of_codeOf {ps : List Piece} (h : codeOf ps = some ls) :
    ∀ p ∈ ps, p.isPlain = true := by
  fun_induction codeOf ps generalizing ls with
  | case1 => simp
  | case2 ps ih => simpa [Piece.isPlain] using ih h
  | case3 l ps hplain ih =>
    obtain ⟨more, hmore, rfl⟩ := Option.map_eq_some_iff.1 h
    simpa [Piece.isPlain, hplain] using ih hmore
  | case4 => cases h
  | case5 => cases h

theorem Code.nil : Code [] [] := fun here => ⟨[], pieces_nil here, rfl⟩

theorem Code.append {a b : List Char} (ha : Code a la) (hb : Code b lb)
    (htight : a = [] ∨ Tight a b) : Code (a ++ b) (la ++ lb) := by
  intro here
  obtain ⟨pa, hpa, hca⟩ := ha here
  obtain ⟨pb, hpb, hcb⟩ := hb (here.advance a)
  refine ⟨pa ++ pb, pieces_append here a b pa pb ?_ htight hpa hpb, ?_⟩
  · intro p hp
    exact isPlain_of_codeOf hca _ (List.mem_map_of_mem hp)
  · rw [List.map_append]
    exact codeOf_append hca hcb

/-- What comes before a character that continues nothing is cut as if it stood alone. -/
theorem Code.append_stop {a b : List Char} (ha : Code a la) (hb : Code b lb)
    (h : ∀ y ∈ b.head?, stopper y = true) : Code (a ++ b) (la ++ lb) :=
  ha.append hb (Or.inr (Or.inl h))

/-- What ends with a character that nothing continues is cut as if it stood alone. -/
theorem Code.append_closed {a b : List Char} (ha : Code a la) (hb : Code b lb)
    (h : ∃ x ∈ a.getLast?, sticky x = false) : Code (a ++ b) (la ++ lb) :=
  ha.append hb (Or.inr (Or.inr h))

/-- One more lexeme at the front, as the tokenizer finds it there. -/
theorem Code.cons {l : Lexeme} {n : Nat} (hat : pieceAt c rest = .ok (.lexeme l, n))
    (hplain : isPlain l = true) (hrest : Code (rest.drop (n - 1)) ls) :
    Code (c :: rest) (l :: ls) := by
  intro here
  obtain ⟨placed, hplaced, hcode⟩ := hrest (here.advance ((c :: rest).take n))
  exact ⟨_, pieces_cons hat hplaced, by simp [codeOf, hplain, hcode]⟩

theorem Code.cons_blank (hblank : isBlank c = true) (hrest : Code rest ls) :
    Code (c :: rest) ls := by
  intro here
  obtain ⟨placed, hplaced, hcode⟩ := hrest (here.advance [c])
  have hat := pieceAt_eq_ok_iff.2 (.blank (t := rest) hblank)
  exact ⟨_, pieces_cons hat (by simpa using hplaced), by simpa [codeOf] using hcode⟩

theorem Code.blanks (h : cs.all isBlank = true) : Code cs [] := by
  induction cs with
  | nil => exact Code.nil
  | cons c cs ih =>
    rw [List.all_cons, Bool.and_eq_true] at h
    exact Code.cons_blank h.1 (ih h.2)

/-! ## Fixed texts -/

/-- One piece of a text that begins at two places. -/
structure Placed.Alike (here there : Cursor) (p q : Placed) : Prop where
  piece : q.piece = p.piece
  start : ∃ cs, p.start = here.advance cs ∧ q.start = there.advance cs

theorem Placed.Alike.of_advance {here there : Cursor} {p q : Placed}
    (h : Placed.Alike (here.advance cs) (there.advance cs) p q) : Placed.Alike here there p q := by
  obtain ⟨hpiece, ds, hp, hq⟩ := h
  exact ⟨hpiece, cs ++ ds, hp.trans (advance_append _ _ _).symm,
    hq.trans (advance_append _ _ _).symm⟩

/-- The pieces of a text do not depend on where it stands. -/
theorem pieces_alike {here : Cursor} {placed : List Placed} (h : pieces here cs = .ok placed)
    (there : Cursor) :
    ∃ moved, pieces there cs = .ok moved ∧
      List.Forall₂ (Placed.Alike here there) placed moved := by
  rw [pieces_eq_ok_iff] at h
  induction h generalizing there with
  | nil => exact ⟨[], pieces_eq_ok_iff.2 (.nil there), .nil⟩
  | @cons here c rest piece n more hat _ ih =>
    obtain ⟨moved, hmoved, hsame⟩ := ih (there.advance ((c :: rest).take n))
    refine ⟨_, pieces_cons hat hmoved, .cons ⟨rfl, [], rfl, rfl⟩ ?_⟩
    exact hsame.imp fun _ _ h => h.of_advance

theorem map_piece_of_alike {here there : Cursor} {ps qs : List Placed}
    (h : List.Forall₂ (Placed.Alike here there) ps qs) :
    qs.map (·.piece) = ps.map (·.piece) := by
  induction h with
  | nil => rfl
  | cons h _ ih => rw [List.map_cons, List.map_cons, h.piece, ih]

/-- The lexemes that a text is code for, if it is. -/
def codeIn (cs : List Char) : Option (List Lexeme) :=
  (pieces (.start 1) cs).toOption.bind fun placed => codeOf (placed.map (·.piece))

theorem Code.of_codeIn (h : codeIn cs = some ls) : Code cs ls := by
  intro there
  unfold codeIn at h
  cases hp : pieces (.start 1) cs with
  | error e => rw [hp] at h; cases h
  | ok placed =>
    rw [hp] at h
    obtain ⟨moved, hmoved, hsame⟩ := pieces_alike hp there
    exact ⟨moved, hmoved, map_piece_of_alike hsame ▸ h⟩

theorem Code.codeIn_eq (h : Code cs ls) : codeIn cs = some ls := by
  obtain ⟨placed, hplaced, hcode⟩ := h (.start 1)
  rw [codeIn, hplaced]
  exact hcode

/-! ## Single lexemes -/

/-- A lexeme before some code. -/
theorem Code.lexeme {l : Lexeme} (hc : isBlank c = false)
    (hopen : opensRemark c (w ++ rest) = false) (hl : LexemeAt c (w ++ rest) l (w.length + 1))
    (hplain : isPlain l = true) (h : Code rest ls) : Code (c :: (w ++ rest)) (l :: ls) := by
  refine Code.cons (pieceAt_eq_ok_iff.2 (.lexeme hc hopen hl)) hplain ?_
  rwa [Nat.add_sub_cancel, List.drop_left]

/-- A text in quotes, from what stands behind the first of them. -/
theorem Code.of_stringBody (hw : StringBody '\'' w (toUnits s.toList)) (h : Code rest ls) :
    Code ('\'' :: (w ++ rest)) (.text s :: ls) := by
  have hl := LexemeAt.text (t := rest) (Or.inl rfl) hw
  rw [ofUnits_toUnits, String.ofList_toList] at hl
  exact Code.lexeme rfl rfl hl rfl h

theorem Code.text (s : String) (h : Code rest ls) :
    Code ((quote s).toList ++ rest) (.text s :: ls) := by
  have hchars : (quote s).toList =
      '\'' :: (quotedChars s.toList ++ ['\'']) := String.toList_ofList
  rw [hchars]
  exact Code.of_stringBody (stringBody_quotedChars s.toList) h

theorem Code.verbatim (hs : isVerbatim s = true) (h : Code rest ls) :
    Code ('\'' :: ((s.toList ++ ['\'']) ++ rest)) (.text s :: ls) :=
  Code.of_stringBody (stringBody_verbatim hs) h

theorem Code.template (s : String) (h : Code rest ls) :
    Code ((quoteTemplate s).toList ++ rest) (.template s false :: ls) := by
  have hchars : (quoteTemplate s).toList =
      '`' :: (templateChars s.toList ++ ['`']) := String.toList_ofList
  have hl := LexemeAt.template (t := rest) rfl (templateBody_templateChars s.toList)
  rw [ofUnits_toUnits, String.ofList_toList] at hl
  rw [hchars]
  exact Code.lexeme rfl rfl hl rfl h

/-! ## Names -/

/-- A whole text that is a name. -/
def isFullName (s : String) : Bool :=
  match s.toList with
  | [] => false
  | c :: rest => isNameStart c && rest.all isNamePart

/-- A name has a first character and goes on with parts of a name. -/
theorem exists_of_isFullName (h : isFullName s = true) :
    ∃ c w, s.toList = c :: w ∧ isNameStart c = true ∧ w.all isNamePart = true := by
  unfold isFullName at h
  split at h
  · cases h
  · next c w hcs => exact ⟨c, w, hcs, Bool.and_eq_true_iff.1 h⟩

theorem isNamePart_of_mem (h : isFullName s = true) (hc : c ∈ s.toList) : isNamePart c = true := by
  obtain ⟨d, w, hcs, hd, hw⟩ := exists_of_isFullName h
  rw [hcs] at hc
  rcases List.mem_cons.1 hc with rfl | hc
  · exact isNamePart_of_isNameStart hd
  · exact List.all_eq_true.1 hw _ hc

theorem ne_nil_of_isFullName (h : isFullName s = true) : s.toList ≠ [] := by
  obtain ⟨c, w, hcs, -⟩ := exists_of_isFullName h
  simp [hcs]

theorem toNat_lt_of_isNamePart (h : isNamePart c = true) : c.toNat < 128 := by
  simp only [isNamePart, Bool.or_eq_true, decide_eq_true_eq, isAlphanum_iff] at h
  rcases h with (h | rfl) | rfl
  · omega
  · decide
  · decide

/-- A character of a name is none of those that have a part of their own in code. -/
theorem isNamePart_facts (h : isNamePart c = true) :
    isBlank c = false ∧ ['/', '\'', '"', '`', '.', '=', '<', '>', '{', '}', '\\'].contains c =
      false ∧ (isNameStart c = true → isDigit c = false) := by
  have hall : ∀ n < 128, isNamePart (Char.ofNat n) = true →
      isBlank (Char.ofNat n) = false ∧
        ['/', '\'', '"', '`', '.', '=', '<', '>', '{', '}', '\\'].contains (Char.ofNat n) = false ∧
        (isNameStart (Char.ofNat n) = true → isDigit (Char.ofNat n) = false) := by
    decide +kernel
  have := hall c.toNat (toNat_lt_of_isNamePart h)
  rw [Char.ofNat_toNat] at this
  exact this h

theorem pieceAt_name (hc : isNameStart c = true) (hw : w.all isNamePart = true)
    (hrest : ∀ y ∈ rest.head?, isNamePart y = false) :
    pieceAt c (w ++ rest) =
      .ok (.lexeme (.identifier (String.ofList (c :: w))), w.length + 1) := by
  obtain ⟨hblank, hmarks, hdigit⟩ := isNamePart_facts (isNamePart_of_isNameStart hc)
  obtain ⟨hslash, hsingle, hdouble, htick, hpoint⟩ :
      c ≠ '/' ∧ c ≠ '\'' ∧ c ≠ '"' ∧ c ≠ '`' ∧ c ≠ '.' := by
    simp only [List.contains_cons, Bool.or_eq_false_iff, beq_eq_false_iff_ne] at hmarks
    exact ⟨hmarks.1, hmarks.2.1, hmarks.2.2.1, hmarks.2.2.2.1, hmarks.2.2.2.2.1⟩
  have htake : (w ++ rest).takeWhile isNamePart = w := by
    rw [List.takeWhile_append_of_pos (List.all_eq_true.1 hw)]
    cases rest with
    | nil => simp
    | cons y t => simp [hrest y rfl]
  have hl := LexemeAt.name (t := w ++ rest) (by simp [isQuote, hsingle, hdouble, htick])
    (by simp [startsNumber, hdigit hc, hpoint]) hc
  rw [htake] at hl
  exact pieceAt_eq_ok_iff.2 (.lexeme hblank (by simp [opensRemark, hslash]) hl)

theorem Code.name (hs : isFullName s = true) (hrest : ∀ y ∈ rest.head?, isNamePart y = false)
    (h : Code rest ls) : Code (s.toList ++ rest) (.identifier s :: ls) := by
  obtain ⟨c, w, hcs, hc, hw⟩ := exists_of_isFullName hs
  have hat := pieceAt_name hc hw hrest
  rw [← hcs, String.ofList_toList] at hat
  rw [hcs]
  exact Code.cons hat rfl (by simpa using h)

/-! ## Numbers -/

theorem isDecimal_of_isDigit (h : c.isDigit = true) : isDecimal c = true := by
  simp [isDecimal, decimalValue?_of_isDigit c h]

/-- A digit is no blank, and no mark. -/
theorem isDigit_facts (h : c.isDigit = true) : isNamePart c = true ∧ isHexMark c = false := by
  have hpart : isNamePart c = true := by simp [isNamePart, Char.isAlphanum, h]
  have hall : ∀ n < 128, (Char.ofNat n).isDigit = true → isHexMark (Char.ofNat n) = false := by
    decide
  have := hall c.toNat (toNat_lt_of_isNamePart hpart)
  rw [Char.ofNat_toNat] at this
  exact ⟨hpart, this h⟩

/-- Digits of the first script are an integer. -/
theorem readNumber_digits (hw : ∀ c ∈ w, c.isDigit = true) (hne : w ≠ [])
    (hlen : w.length ≤ Number.maxDigits) :
    readNumber w = .ok (.int (ofDecimals w), w.length) := by
  have hhex : hexNumber? w = none := by
    unfold hexNumber?
    split
    · next mark rest =>
      have := (isDigit_facts (hw mark (by simp))).2
      simp [this]
    · rfl
  have htake : w.takeWhile isDecimal = w := by
    have happend : (w ++ []).takeWhile isDecimal = w ++ [].takeWhile isDecimal :=
      List.takeWhile_append_of_pos fun c hc => isDecimal_of_isDigit (hw c hc)
    simpa using happend
  unfold readNumber decimalNumber
  simp only [hhex, htake, List.drop_length]
  rw [if_neg (by simpa using hne)]
  simp only [List.drop_nil, Number.exponent?, List.head?_nil, reduceCtorEq, if_false]
  rw [if_neg (by omega)]

theorem pieceAt_number (hw : ∀ d ∈ c :: w, d.isDigit = true) (hlen : w.length < Number.maxDigits)
    (hrest : ∀ y ∈ rest.head?, stopper y = true) :
    pieceAt c (w ++ rest) =
      .ok (.lexeme (.number (.int (ofDecimals (c :: w)))), w.length + 1) := by
  have hc := hw c List.mem_cons_self
  obtain ⟨hblank, hmarks, -⟩ := isNamePart_facts (isDigit_facts hc).1
  obtain ⟨hslash, hsingle, hdouble, htick⟩ : c ≠ '/' ∧ c ≠ '\'' ∧ c ≠ '"' ∧ c ≠ '`' := by
    simp only [List.contains_cons, Bool.or_eq_false_iff, beq_eq_false_iff_ne] at hmarks
    exact ⟨hmarks.1, hmarks.2.1, hmarks.2.2.1, hmarks.2.2.2.1⟩
  have hread : readNumber (c :: (w ++ rest)) =
      .ok (.int (ofDecimals (c :: w)), (c :: w).length) := by
    rw [← List.cons_append, readNumber_append _ _ (Or.inl hrest)]
    exact readNumber_digits hw (by simp) hlen
  refine pieceAt_eq_ok_iff.2 (.lexeme hblank (by simp [opensRemark, hslash]) (.number ?_ ?_ hread))
  · simp [isQuote, hsingle, hdouble, htick]
  · simp [startsNumber, isDigit, isDecimal_of_isDigit hc]

theorem length_decimalChars_le {n : Nat} (h : n < Number.digitLimit) :
    (Number.decimalChars n).length ≤ Number.maxDigits := by
  unfold Number.digitLimit at h
  have hpos : 0 < Number.maxDigits := by decide
  generalize Number.maxDigits = k at h hpos ⊢
  exact (Nat.length_toDigits_le_iff (by omega) hpos).2 h

theorem Code.nat {n : Nat} (hn : n < Number.digitLimit) (hrest : ∀ y ∈ rest.head?, stopper y = true)
    (h : Code rest ls) : Code (Number.decimalChars n ++ rest) (.number (.int n) :: ls) := by
  have hlen := length_decimalChars_le hn
  have hvalue := ofDecimals_decimalChars n
  have hdigits : ∀ c ∈ Number.decimalChars n, c.isDigit = true :=
    fun c hc => isDigit_of_mem_decimalChars hc
  cases hcs : Number.decimalChars n with
  | nil => exact absurd hcs Nat.toDigits_ne_nil
  | cons c w =>
    rw [hcs] at hlen hvalue hdigits
    have hat := pieceAt_number hdigits hlen hrest
    rw [hvalue] at hat
    exact Code.cons hat rfl (by simpa using h)

end EventFlow.Token
