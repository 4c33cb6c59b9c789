import EventFlow.Proofs.Token.Break

/-! Texts that are joined by a line break are cut into tokens apart.

A line break ends every remark and every lexeme, so nothing before it depends on what stands
behind it.  What stands behind it is cut as it is alone, further down and further on; the comment
that the first text leaves over goes to the first token of the second:

    tokenize (a ++ "\n" ++ b) = (tokens of a, without the end) ++ (tokens of b, moved)

Where the second text is refused, the joined text is refused with the same complaint. -/

namespace EventFlow

variable (n : Nat)

/-- The same place with `n` more characters before the text. -/
def Cursor.shift (c : Cursor) : Cursor := { c with offset := c.offset + n }

theorem Cursor.advance_shift (here : Cursor) (cs : List Char) :
    (here.shift n).advance cs = (here.advance cs).shift n := by
  induction cs generalizing here with
  | nil => rfl
  | cons c cs ih =>
    have hstep : (here.shift n).step c = (here.step c).shift n := by
      unfold Cursor.step
      split <;> simp [Cursor.shift, Nat.add_right_comm]
    show ((here.shift n).step c).advance cs = ((here.step c).advance cs).shift n
    rw [hstep, ih]

namespace Token

/-- The same token with `n` more characters before the text. -/
def shift (t : Token) : Token := { t with start := t.start.shift n, stop := t.stop + n }

def Placed.shift (p : Placed) : Placed :=
  { p with start := p.start.shift n, stop := p.stop.shift n }

/-- The first token takes a comment that is left over, unless it has one of its own. -/
def handOn (doc : Option String) : List Token → List Token
  | [] => []
  | t :: ts => { t with doc := t.doc <|> doc } :: ts

/-! ## Further on -/

/-- A text that stands further on is cut into the same pieces, or refused on the same line. -/
theorem pieces_shift (here : Cursor) (cs : List Char) :
    pieces (here.shift n) cs = (pieces here cs).map (List.map (Placed.shift n)) := by
  fun_induction pieces here cs with
  | case1 here =>
    unfold pieces
    rfl
  | case2 here c rest fault k hat =>
    unfold pieces
    simp only [hat, Cursor.advance_shift]
    rfl
  | case3 here c rest piece k hat stop ih =>
    have hmore : pieces ((here.advance ((c :: rest).take k)).shift n) (rest.drop (k - 1)) =
        (pieces stop (rest.drop (k - 1))).map (List.map (Placed.shift n)) := ih
    conv => lhs; unfold pieces
    simp only [hat, Cursor.advance_shift, hmore]
    cases pieces stop (rest.drop (k - 1)) <;> rfl

theorem ofPieces_shift (stop : Cursor) (doc : Option String) (ps : List Placed) :
    ofPieces (stop.shift n) doc (ps.map (Placed.shift n)) =
      (ofPieces stop doc ps).map (shift n) := by
  induction ps generalizing doc with
  | nil => rfl
  | cons p ps ih =>
    rw [List.map_cons, ofPieces, ofPieces]
    cases hp : p.piece with
    | lexeme l =>
      simp only [Placed.shift, hp, List.map_cons, ih]
      rfl
    | comment raw => simp only [Placed.shift, hp, ih]
    | blank => simp only [Placed.shift, hp, ih]
    | remark => simp only [Placed.shift, hp, ih]

/-- A comment before some pieces goes to their first token. -/
theorem ofPieces_handOn (stop : Cursor) (doc : Option String) (ps : List Placed) :
    ofPieces stop doc ps = handOn doc (ofPieces stop none ps) := by
  induction ps generalizing doc with
  | nil => rfl
  | cons p ps ih =>
    rw [ofPieces, ofPieces]
    cases p.piece with
    | lexeme l => rfl
    | comment raw =>
      dsimp only
      cases isDoc raw with
      | true =>
        -- the comment nearest to the token wins
        rw [if_pos rfl, if_pos rfl, ih]
        cases ofPieces stop none ps with
        | nil => rfl
        | cons t ts => cases ht : t.doc <;> simp [handOn, ht]
      | false => exact ih doc
    | blank => exact ih doc
    | remark => exact ih doc

/-! ## Up to the line break -/

/-- A piece does not look across a line break. -/
theorem pieceAt_append_break {c : Char} {r : List Char} {p : Piece} {n : Nat}
    (h : pieceAt c r = .ok (p, n)) (b : List Char) : pieceAt c (r ++ '\n' :: b) = .ok (p, n) := by
  by_cases hremark : p = .remark
  · subst hremark
    cases pieceAt_eq_ok_iff.1 h with
    | @remark w rest hw hrest =>
      rw [pieceAt_eq_ok_iff, List.cons_append, List.append_assoc]
      refine .remark hw ?_
      cases rest with
      | nil => simp
      | cons d rest => exact hrest
  · exact (pieceAt_append c r _ p n hremark (Or.inl (by simp; decide)) h).1

theorem pieces_append_break {here : Cursor} {a : List Char} {pa : List Placed}
    (h : pieces here a = .ok pa) (b : List Char) :
    pieces here (a ++ '\n' :: b) = (pieces (here.advance a) ('\n' :: b)).map (pa ++ ·) := by
  rw [pieces_eq_ok_iff] at h
  induction h with
  | nil here =>
    show pieces here ('\n' :: b) = (pieces here ('\n' :: b)).map _
    cases pieces here ('\n' :: b) <;> rfl
  | @cons here c rest piece n more hat _ ih =>
    obtain ⟨hpos, hle⟩ := pieceAt_le hat
    rw [pieces_extend_eq_map (pieceAt_append_break hat b) hle, ih, advance_rest hpos here c rest]
    cases pieces (Cursor.advance _ (rest.drop (n - 1))) ('\n' :: b) <;> rfl

/-! ## The tokens -/

/-- The place behind some lines is the first column of the next one. -/
theorem advance_break (line : Nat) (a : List Char) :
    (Cursor.start line).advance (a ++ ['\n']) =
      (Cursor.start (line + a.count '\n' + 1)).shift (a.length + 1) := by
  have hoffset := offset_advance (.start line) a
  have hline := line_advance (.start line) a
  rw [advance_append]
  show Cursor.step _ '\n' = _
  rw [Cursor.step, if_pos rfl, hoffset, hline]
  simp [Cursor.start, Cursor.shift]

/-- The pieces of both texts, with the line break between them. -/
theorem pieces_joined {line : Nat} {a : List Char} {pa : List Placed}
    (h : pieces (.start line) a = .ok pa) (b : List Char) :
    ∃ blank : Placed, blank.piece = .blank ∧
      pieces (.start line) (a ++ '\n' :: b) =
        (pieces (.start (line + a.count '\n' + 1)) b).map fun pb =>
          pa ++ blank :: pb.map (Placed.shift (a.length + 1)) := by
  let here := (Cursor.start line).advance a
  have hat : pieceAt '\n' ([] ++ b) = .ok (.blank, ([] : List Char).length + 1) := by
    exact pieceAt_eq_ok_iff.2 (.blank (by decide))
  have hbreak : here.advance ['\n'] =
      (Cursor.start (line + a.count '\n' + 1)).shift (a.length + 1) := by
    rw [← advance_break, advance_append]
  have hrest : pieces here ('\n' :: b) = _ := pieces_eq_map hat
  refine ⟨⟨.blank, here, here.advance ['\n']⟩, rfl, ?_⟩
  rw [pieces_append_break h, hrest, hbreak, pieces_shift]
  cases pieces (.start (line + a.count '\n' + 1)) b <;> rfl

theorem tokenizeFrom_joined {line : Nat} {a : List Char} {ts : List Token}
    (h : tokenizeFrom line a = .ok ts) (b : List Char) :
    ∃ (lexemes : List Token) (last : Token), ts = lexemes ++ [last] ∧ last.lexeme = .eof ∧
      tokenizeFrom line (a ++ '\n' :: b) =
        (tokenizeFrom (line + a.count '\n' + 1) b).map fun us =>
          lexemes ++ (handOn last.doc us).map (shift (a.length + 1)) := by
  obtain ⟨pa, hpa, hts⟩ := bind_eq_ok.1 h
  cases hts
  refine ⟨_, _, ofPieces_eq _ _ _, rfl, ?_⟩
  obtain ⟨blank, hblank, hpieces⟩ := pieces_joined hpa b
  have hstop : (Cursor.start line).advance (a ++ '\n' :: b) =
      ((Cursor.start (line + a.count '\n' + 1)).advance b).shift (a.length + 1) := by
    rw [List.append_cons, advance_append, advance_break, Cursor.advance_shift]
  rw [tokenizeFrom, tokenizeFrom, hpieces, hstop]
  cases pieces (.start (line + a.count '\n' + 1)) b with
  | error e => rfl
  | ok pb =>
    refine congrArg Except.ok ?_
    dsimp only
    rw [ofPieces_eq, tokensOf_append, List.append_assoc, ← ofPieces_eq, ← ofPieces_handOn,
      ← ofPieces_shift, ofPieces, hblank]

/-- **Texts that are joined by a line break are cut into tokens apart.**  The second text is cut as
it is when its first line has the number of the line that it begins on, and is refused with the same
complaint or not at all. -/
theorem tokenize_joined {s₁ : String} {ts : List Token} (h : tokenize s₁ = .ok ts) (s₂ : String) :
    ∃ (lexemes : List Token) (last : Token), ts = lexemes ++ [last] ∧ last.lexeme = .eof ∧
      tokenize (s₁ ++ "\n" ++ s₂) =
        (tokenizeFrom (s₁.toList.count '\n' + 2) s₂.toList).map fun us =>
          lexemes ++ (handOn last.doc us).map (shift (s₁.length + 1)) := by
  obtain ⟨lexemes, last, hts, hlast, hjoined⟩ := tokenizeFrom_joined h s₂.toList
  refine ⟨lexemes, last, hts, hlast, ?_⟩
  have hsource : (s₁ ++ "\n" ++ s₂).toList = s₁.toList ++ '\n' :: s₂.toList := by
    simp [String.toList_append]
  have hline : 1 + s₁.toList.count '\n' + 1 = s₁.toList.count '\n' + 2 := by omega
  rw [tokenize, hsource, hjoined, hline, String.length_toList]

/-- A line that ends with a doc comment and a remark. -/
def noted : String := "pay /** due */ // it's"

/-- The comment is left for the text in quotes on the next line; the quote in the remark is not. -/
theorem tokenize_joined_noted :
    (∃ ts, tokenize noted = .ok ts) ∧
      ∃ lexemes us, tokenizeFrom 2 "'on': 1".toList = .ok us ∧
        tokenize (noted ++ "\n" ++ "'on': 1") =
          .ok (lexemes ++ (handOn (some "/** due */") us).map (shift 23)) := by
  have hfirst : (tokenize noted).toOption.map (fun ts => ts.getLast?.bind (·.doc)) =
      some (some "/** due */") := by decide +kernel
  have hsecond : (tokenizeFrom 2 "'on': 1".toList).toOption.isSome = true := by decide +kernel
  have hline : noted.toList.count '\n' + 2 = 2 := by decide +kernel
  have hlength : noted.length + 1 = 23 := by decide +kernel
  obtain ⟨ts, hts, hdoc⟩ := Option.map_eq_some_iff.1 hfirst
  obtain ⟨us, hus⟩ := Option.isSome_iff_exists.1 hsecond
  obtain ⟨lexemes, last, rfl, -, hjoined⟩ := tokenize_joined (toOption_eq_some hts) "'on': 1"
  have hlast : last.doc = some "/** due */" := by simpa using hdoc
  rw [hline, toOption_eq_some hus, hlast, hlength] at hjoined
  exact ⟨⟨_, toOption_eq_some hts⟩, lexemes, us, toOption_eq_some hus, hjoined⟩

end Token

end EventFlow
