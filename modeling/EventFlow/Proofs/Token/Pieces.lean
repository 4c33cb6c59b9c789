import EventFlow.Proofs.Token.Semicolon

/-! What a piece of source text can be, and the lexemes of a list of pieces. -/

namespace EventFlow.Token

variable {w : List Char} {c : Char} {p : Piece}

/-! ## One piece -/

/-- A lexeme that is written in quotes. -/
def isLiteral : Lexeme → Bool
  | .text _ => true
  | .template _ _ => true
  | _ => false

theorem LexemeAt.isLiteral_eq {rest : List Char} {l : Lexeme} {n : Nat} (h : LexemeAt c rest l n) :
    isLiteral l = isQuote c := by
  cases h with
  | text hc => rcases hc with rfl | rfl <;> rfl
  | template hc => rw [hc]; rfl
  | number hc | name hc | punct hc => exact hc.symm

theorem pieceAt_remark_to_end {cs : List Char} (h : '\n' ∉ cs) :
    pieceAt '/' ('/' :: cs) = .ok (.remark, cs.length + 2) := by
  have hremark := PieceAt.remark (t := []) h (by simp)
  rwa [List.append_nil, ← pieceAt_eq_ok_iff] at hremark

/-! ## All pieces -/

/-- The first piece of a text. -/
theorem pieces_eq_map {here : Cursor} {rest : List Char}
    (h : pieceAt c (w ++ rest) = .ok (p, w.length + 1)) :
    pieces here (c :: (w ++ rest)) = (pieces (here.advance (c :: w)) rest).map
      (⟨p, here, here.advance (c :: w)⟩ :: ·) := by
  have htake : (c :: (w ++ rest)).take (w.length + 1) = c :: w := by
    rw [List.take_succ_cons, List.take_left]
  have hdrop : (w ++ rest).drop (w.length + 1 - 1) = rest := by
    rw [Nat.add_sub_cancel, List.drop_left]
  conv => lhs; unfold pieces
  simp only [h, htake, hdrop]
  cases pieces (here.advance (c :: w)) rest <;> rfl

theorem pieces_cons_append {here : Cursor} {rest : List Char} {more : List Placed}
    (h : pieceAt c (w ++ rest) = .ok (p, w.length + 1))
    (hmore : pieces (here.advance (c :: w)) rest = .ok more) :
    pieces here (c :: (w ++ rest)) = .ok (⟨p, here, here.advance (c :: w)⟩ :: more) := by
  rw [pieces_eq_map h, hmore]
  rfl

/-- The pieces of a text that is one piece. -/
theorem pieces_single {here : Cursor} (h : pieceAt c w = .ok (p, w.length + 1)) :
    pieces here (c :: w) = .ok [⟨p, here, here.advance (c :: w)⟩] := by
  have hself : pieceAt c (w ++ []) = .ok (p, w.length + 1) := by rwa [List.append_nil]
  have hcons := pieces_cons_append hself (pieces_nil (here.advance (c :: w)))
  rwa [List.append_nil] at hcons

/-- What the tokens of a text say, the end of the text among them. -/
def lexemes? (s : String) : Option (List Lexeme) :=
  (tokenize s).toOption.map (·.map (·.lexeme))

def Piece.lexeme? : Piece → Option Lexeme
  | .lexeme l => some l
  | _ => none

def lexemesOf (placed : List Placed) : List Lexeme := placed.filterMap (·.piece.lexeme?)

theorem map_lexeme_ofPieces (stop : Cursor) (doc : Option String) (placed : List Placed) :
    (ofPieces stop doc placed).map (·.lexeme) = lexemesOf placed ++ [.eof] := by
  induction placed generalizing doc with
  | nil => rfl
  | cons p placed ih =>
    obtain ⟨piece, start, last⟩ := p
    cases piece with
    | lexeme l => exact congrArg (l :: ·) (ih none)
    | comment raw => exact ih _
    | blank => exact ih doc
    | remark => exact ih doc

theorem lexemes?_eq {s : String} {placed : List Placed}
    (h : pieces (.start 1) s.toList = .ok placed) :
    lexemes? s = some (lexemesOf placed ++ [.eof]) := by
  rw [lexemes?, tokenize, tokenizeFrom, h, ← map_lexeme_ofPieces]
  rfl

theorem lexemesOf_of_codeOf {placed : List Placed} {ls : List Lexeme}
    (h : codeOf (placed.map (·.piece)) = some ls) : lexemesOf placed = ls := by
  induction placed generalizing ls with
  | nil =>
    cases h
    rfl
  | cons p placed ih =>
    obtain ⟨piece, start, stop⟩ := p
    cases piece with
    | blank => exact ih h
    | remark => cases h
    | comment raw => cases h
    | lexeme l =>
      rw [List.map_cons, codeOf] at h
      split at h
      · obtain ⟨more, hmore, rfl⟩ := Option.map_eq_some_iff.1 h
        exact congrArg (l :: ·) (ih hmore)
      · cases h

/-- What code says, up to the end of the text. -/
theorem lexemes?_of_code {s : String} {ls : List Lexeme} (h : Code s.toList ls) :
    lexemes? s = some (ls ++ [.eof]) := by
  obtain ⟨placed, hplaced, hcode⟩ := h (.start 1)
  rw [lexemes?_eq hplaced, lexemesOf_of_codeOf hcode]

end EventFlow.Token
