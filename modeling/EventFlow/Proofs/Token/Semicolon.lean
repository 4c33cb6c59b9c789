import EventFlow.Proofs.Token.Documented

/-! Source text without the semicolon at the end of one of its lines.

A semicolon ends every lexeme before it, as a line break does, unless it stands in a template.  So
a line is cut into the same pieces with and without it, up to the piece that holds it:

    pieces here (a ++ ";\n" ++ b) = front ++ seam ++ back
    pieces here (a ++ "\n" ++ b)  = front ++ seam' ++ back'

The seam is the semicolon and the line break, or one remark or comment that runs over both, and
`back'` is `back` moved by one place. -/

namespace EventFlow.Token

variable {b r : List Char} {c : Char} {n k : Nat} {p : Piece}

/-! ## Texts, comments and lexemes -/

theorem StringBody.exists_head {quote : Char} {w : List Char} {units : List Nat}
    (h : StringBody quote w units) : ∃ c t, w = c :: t ∧ c ≠ '\n' := by
  cases h with
  | close hn => exact ⟨quote, [], rfl, hn⟩
  | escape => exact ⟨_, _, rfl, by decide⟩
  | char hn => exact ⟨_, _, rfl, hn⟩

/-- No text in quotes goes on after a semicolon that ends a line. -/
theorem StringBody.before_semicolon {quote : Char} (hquote : quote ≠ ';') {w rest cs : List Char}
    {units : List Nat} (h : StringBody quote w units) (heq : w ++ rest = cs ++ ';' :: '\n' :: b) :
    ∃ t, cs = w ++ t := by
  -- the line break is not the first character of what is left
  have hbreak : ∀ {v : List Char} {us : List Nat}, StringBody quote v us →
      v ++ rest ≠ '\n' :: b := by
    intro v us hv hnext
    obtain ⟨c, t, rfl, hc⟩ := hv.exists_head
    exact hc (List.cons.inj hnext).1
  induction h generalizing cs with
  | close =>
    cases cs with
    | nil => exact absurd (List.cons.inj heq).1 hquote
    | cons d cs => exact ⟨cs, by rw [(List.cons.inj heq).1]; rfl⟩
  | @char c w more hn hq hb hw ih =>
    cases cs with
    | nil => exact absurd (List.cons.inj heq).2 (hbreak hw)
    | cons d cs =>
      obtain ⟨rfl, hrest⟩ := List.cons.inj heq
      obtain ⟨t, rfl⟩ := ih hrest
      exact ⟨t, rfl⟩
  | @escape e w units more hq he hw ih =>
    cases cs with
    | nil => cases (List.cons.inj heq).1
    | cons d cs =>
      obtain ⟨rfl, hrest⟩ := List.cons.inj heq
      obtain ⟨c, t, rfl, hdigits⟩ := he.digits
      have hsplit : (c :: t) ++ (w ++ rest) = cs ++ ';' :: '\n' :: b := by
        rw [← List.append_assoc]
        exact hrest
      rcases List.append_eq_append_iff.1 hsplit with ⟨v, rfl, hv⟩ | ⟨v, hv, hnext⟩
      · obtain ⟨u, rfl⟩ := ih hv
        exact ⟨u, by simp⟩
      · -- behind its first character an escape has neither a semicolon nor a line break
        have hnot : ∀ x ∈ t, x ≠ ';' ∧ x ≠ '\n' := by
          intro x hx
          have := hdigits x hx
          refine ⟨?_, ?_⟩ <;> rintro rfl <;> exact absurd this (by decide)
        match v, hnext with
        | [], hnext =>
          obtain ⟨u, hu⟩ := @ih [] hnext.symm
          obtain ⟨_, _, rfl, -⟩ := hw.exists_head
          cases hu
        | [_], hnext => exact absurd (List.cons.inj hnext).2.symm (hbreak hw)
        | x :: y :: v, hnext =>
          obtain ⟨rfl, rfl, -⟩ : ';' = x ∧ '\n' = y ∧ b = v ++ (w ++ rest) := by simpa using hnext
          cases cs with
          | nil => exact absurd rfl (hnot '\n' (by rw [(List.cons.inj hv).2]; simp)).2
          | cons d cs => exact absurd rfl (hnot ';' (by rw [(List.cons.inj hv).2]; simp)).1

theorem head?_append_cons {d : Char} (hne : c ≠ d) (cs more : List Char) :
    (cs ++ c :: more).head? = some d ↔ cs.head? = some d := by
  cases cs with
  | nil => simp [hne]
  | cons a cs => rfl

/-- A comment documents what follows it if it opens with two stars. -/
theorem isDoc_comment (w : List Char) :
    isDoc (String.ofList ('/' :: '*' :: (w ++ ['*', '/']))) = true ↔ w.head? = some '*' := by
  have hlong : String.ofList ('/' :: '*' :: (w ++ ['*', '/'])) = "/**/" ↔ w = [] := by
    constructor
    · intro e
      have := congrArg (fun s : String => s.toList.length) e
      exact List.eq_nil_of_length_eq_zero (by simpa using this)
    · rintro rfl
      rfl
  rw [isDoc, String.toList_ofList, Bool.and_eq_true, decide_eq_true_eq, Ne, hlong]
  cases w with
  | nil => simp
  | cons c w =>
    rcases eq_or_ne c '*' with rfl | hc
    · simp [Text.startsWith, Text.stripStart]
    · simp [Text.startsWith, Text.stripStart, hc, hc.symm]

/-- A comment over a semicolon and a line break is one without the semicolon. -/
theorem not_infix_of_semicolon {a : List Char}
    (h : ¬ ['*', '/'] <:+: (a ++ ';' :: '\n' :: b) ++ ['*']) :
    ¬ ['*', '/'] <:+: (a ++ '\n' :: b) ++ ['*'] := by
  simp only [List.append_assoc, List.cons_append, Text.pair_infix_append (a := a),
    List.infix_cons_iff (a := ';'), not_or] at h ⊢
  exact ⟨h.1, h.2.1.2, by simp⟩

/-- A lexeme that is no literal does not depend on what follows a tight seam. -/
theorem lexemeAt_append_of_tight {u v : List Char} (hc : isQuote c = false) (h : Tight (c :: u) v) :
    lexemeAt c (u ++ v) = lexemeAt c u := by
  rw [lexemeAt_of_not_isQuote hc, lexemeAt_of_not_isQuote hc, startsNumber_append c u v h,
    ← List.cons_append, readNumber_append _ _ h, punctAt?_append c u v h]
  by_cases hname : isNameStart c = true
  · have hsticky : sticky c = true := by simp [sticky, isNamePart_of_isNameStart hname]
    rw [(h.tail hsticky).names]
  · simp only [if_neg hname]

/-- What is read of a text and ends before a seam is the front of what stands before the seam. -/
theorem exists_front {w t : List Char} (h : r ++ b = w ++ t) (hle : w.length ≤ r.length) :
    ∃ u, r = w ++ u ∧ t = u ++ b := by
  rcases List.append_eq_append_iff.1 h with ⟨v, rfl, rfl⟩ | ⟨v, rfl, rfl⟩
  · obtain rfl : v = [] := List.eq_nil_of_length_eq_zero (by rw [List.length_append] at hle; omega)
    exact ⟨[], by simp, rfl⟩
  · exact ⟨v, rfl, rfl⟩

theorem LexemeAt.of_tight {l : Lexeme} (h : LexemeAt c (r ++ b) l n) (hc : isQuote c = false)
    (htight : Tight (c :: r) b) : LexemeAt c r l n := by
  rw [← lexemeAt_eq_ok_iff, ← lexemeAt_append_of_tight hc htight]
  exact lexemeAt_eq_ok_iff.2 h

/-- A lexeme that ends before a tight seam is read without what follows the seam. -/
theorem LexemeAt.of_append {l : Lexeme} (h : LexemeAt c (r ++ b) l n) (htight : Tight (c :: r) b)
    (hn : n ≤ r.length + 1) : LexemeAt c r l n := by
  have hplain := fun hc => h.of_tight hc htight
  generalize hrest : r ++ b = rest at h
  cases h with
  | text hc hw =>
    obtain ⟨t, rfl, -⟩ := exists_front hrest (by omega)
    exact .text hc hw
  | template hc hw =>
    obtain ⟨t, rfl, -⟩ := exists_front hrest (by omega)
    exact .template hc hw
  | number hc | name hc | punct hc => exact hplain hc

theorem LexemeAt.of_semicolon {l : Lexeme} (h : LexemeAt c (r ++ ';' :: '\n' :: b) l k) :
    LexemeAt c r l k ∨ (∃ value marked, l = .template value marked) ∧ r.length + 1 < k := by
  have htight : Tight (c :: r) (';' :: '\n' :: b) := Or.inl (by simp; decide)
  have hplain := fun hc => h.of_tight hc htight
  by_cases hk : k ≤ r.length + 1
  · exact Or.inl (h.of_append htight hk)
  generalize hrest : r ++ ';' :: '\n' :: b = rest at h
  cases h with
  | text hc hw =>
    obtain ⟨t, rfl⟩ := hw.before_semicolon (by rcases hc with rfl | rfl <;> decide) hrest.symm
    exact Or.inl (.text hc hw)
  | template => exact Or.inr ⟨⟨_, _, rfl⟩, by omega⟩
  | number hc | name hc | punct hc => exact Or.inl (hplain hc)

/-! ## One piece -/

/-- A piece over the semicolon behind `c :: r`: a template, or a remark or comment that is one
character shorter without it. -/
inductive RunsOver (c : Char) (r b : List Char) : Piece → Nat → Prop
  | template {value : String} {marked : Bool} {k : Nat} (hlong : r.length + 1 < k) :
      RunsOver c r b (.lexeme (.template value marked)) k
  | remark (h : pieceAt c (r ++ '\n' :: b) = .ok (.remark, r.length + 1)) :
      RunsOver c r b .remark (r.length + 2)
  | comment {raw raw' : String} {k : Nat} (hlong : r.length + 2 ≤ k)
      (h : pieceAt c (r ++ '\n' :: b) = .ok (.comment raw', k)) (hdoc : isDoc raw' = isDoc raw) :
      RunsOver c r b (.comment raw) (k + 1)

theorem RunsOver.lt (h : RunsOver c r b p k) : r.length + 1 < k := by
  cases h with
  | template hlong => exact hlong
  | remark => omega
  | comment hlong => omega

/-- A piece stands before the semicolon at the end of its line, or runs over it. -/
theorem pieceAt_of_semicolon (hline : '\n' ∉ r)
    (h : pieceAt c (r ++ ';' :: '\n' :: b) = .ok (p, k)) :
    (p ≠ .remark ∧ pieceAt c r = .ok (p, k)) ∨ RunsOver c r b p k := by
  simp only [pieceAt_eq_ok_iff] at h ⊢
  have hopens : opensRemark c (r ++ ';' :: '\n' :: b) = opensRemark c r :=
    opensRemark_append (Or.inl (by simp; decide))
  have hat := h
  generalize hrest : r ++ ';' :: '\n' :: b = rest at h
  cases h with
  | blank hc => exact Or.inl ⟨nofun, .blank hc⟩
  | remark =>
    obtain ⟨line, rfl⟩ : ∃ q, r = '/' :: q :=
      List.head?_eq_some_iff.1 ((head?_append_cons (by decide) _ _).1 (congrArg List.head? hrest))
    -- the remark goes on to the end of the line
    have hover := PieceAt.remark (w := line ++ [';']) (t := '\n' :: b) (by simpa using hline)
      (by simp)
    rw [List.append_assoc, List.length_append, ← pieceAt_eq_ok_iff] at hover
    have hk := (Prod.mk.inj (Except.ok.inj (hover.symm.trans (pieceAt_eq_ok_iff.2 hat)))).2
    rw [← hk]
    exact Or.inr (.remark (pieceAt_eq_ok_iff.2 (.remark (by simpa using hline) (by simp))))
  | @comment w rest hw =>
    obtain ⟨r, rfl⟩ : ∃ q, r = '*' :: q :=
      List.head?_eq_some_iff.1 ((head?_append_cons (by decide) _ _).1 (congrArg List.head? hrest))
    rcases List.append_eq_append_iff.1 (List.cons.inj hrest).2 with ⟨t, hw', ht⟩ | ⟨t, rfl, ht⟩
    · match t, ht with
      | [], ht => cases (List.cons.inj ht).1
      | [_], ht => cases (List.cons.inj (List.cons.inj ht).2).1
      | x :: y :: t, ht =>
        obtain ⟨rfl, rfl, rfl⟩ : ';' = x ∧ '\n' = y ∧ b = t ++ '*' :: '/' :: rest := by
          simpa using ht
        subst hw'
        have hlength : (r ++ ';' :: '\n' :: t).length + 4 = (r ++ '\n' :: t).length + 4 + 1 := by
          simp only [List.length_append, List.length_cons]
          omega
        have hbreak := PieceAt.comment (t := rest) (not_infix_of_semicolon hw)
        rw [List.append_assoc, List.cons_append, ← pieceAt_eq_ok_iff] at hbreak
        rw [hlength]
        refine Or.inr (.comment ?_ hbreak ?_)
        · simp only [List.length_append, List.length_cons]
          omega
        · rw [Bool.eq_iff_iff, isDoc_comment, isDoc_comment, head?_append_cons (by decide),
            head?_append_cons (by decide)]
    · match t, ht with
      | [], ht => cases (List.cons.inj ht).1
      | [_], ht => cases (List.cons.inj (List.cons.inj ht).2).1
      | x :: y :: t, ht =>
        obtain ⟨rfl, rfl, -⟩ : '*' = x ∧ '/' = y ∧ rest = t ++ ';' :: '\n' :: b := by simpa using ht
        exact Or.inl ⟨nofun, .comment hw⟩
  | lexeme hc hopen hl =>
    subst hrest
    rcases hl.of_semicolon with hl | ⟨⟨value, marked, rfl⟩, hlong⟩
    · exact Or.inl ⟨nofun, .lexeme hc (hopens.symm.trans hopen) hl⟩
    · exact Or.inr (.template hlong)

/-! ## Behind the semicolon -/

/-- One place of a text, with and without the semicolon at offset `n` of an earlier line. -/
structure Shifts (n line : Nat) (here there : Cursor) : Prop where
  behind : n < here.offset
  below : line < here.line
  offset_eq : there.offset + 1 = here.offset
  line_eq : there.line = here.line

/-- One token of a text, with and without the semicolon at offset `n` of an earlier line. -/
structure Shifted (n line : Nat) (t u : Token) : Prop where
  lexeme : u.lexeme = t.lexeme
  doc : u.doc = t.doc
  start : Shifts n line t.start u.start

/-- One token of a text that begins at two places. -/
structure Alike (here there : Cursor) (t u : Token) : Prop where
  lexeme : u.lexeme = t.lexeme
  doc : u.doc = t.doc
  start : ∃ cs, t.start = here.advance cs ∧ u.start = there.advance cs

section Behind

variable {n line : Nat} {here there : Cursor} {a b : List Char} {doc : Option String}
  {ps qs : List Placed}

theorem Shifts.advance (h : Shifts n line here there) (cs : List Char) :
    Shifts n line (here.advance cs) (there.advance cs) := by
  obtain ⟨hn, hline, hoffset, hlines⟩ := h
  constructor <;> simp only [offset_advance, line_advance] <;> omega

theorem shifts_of_semicolon (hn : here.offset + a.length = n) (hline : here.line = line)
    (w : List Char) :
    Shifts n line (here.advance (a ++ ';' :: '\n' :: w)) (here.advance (a ++ '\n' :: w)) := by
  constructor <;> simp [offset_advance, line_advance] <;> omega

theorem Alike.shifted {t u : Token} (h : Alike here there t u) (hs : Shifts n line here there) :
    Shifted n line t u := by
  obtain ⟨cs, ht, hu⟩ := h.start
  exact ⟨h.lexeme, h.doc, ht ▸ hu ▸ hs.advance cs⟩

theorem ofPieces_alike (h : List.Forall₂ (Placed.Alike here there) ps qs) (cs : List Char)
    (doc : Option String) :
    List.Forall₂ (Alike here there) (ofPieces (here.advance cs) doc ps)
      (ofPieces (there.advance cs) doc qs) := by
  induction h generalizing doc with
  | nil => exact .cons ⟨rfl, rfl, cs, rfl, rfl⟩ .nil
  | @cons p q ps qs hpq _ ih =>
    rw [ofPieces, ofPieces, hpq.piece]
    cases p.piece with
    | lexeme l => exact .cons ⟨rfl, rfl, hpq.start⟩ (ih none)
    | comment raw => exact ih _
    | blank => exact ih doc
    | remark => exact ih doc

/-- What follows the semicolon is cut into the same tokens without it. -/
theorem shifted_of_pieces (hs : Shifts n line here there) {z : List Char}
    (h : pieces here z = .ok ps) :
    ∃ qs, pieces there z = .ok qs ∧ ∀ doc, List.Forall₂ (Shifted n line)
      (ofPieces (here.advance z) doc ps) (ofPieces (there.advance z) doc qs) := by
  obtain ⟨qs, hqs, halike⟩ := pieces_alike h there
  exact ⟨qs, hqs, fun doc => (ofPieces_alike halike z doc).imp fun _ _ ht => ht.shifted hs⟩

/-- A comment before some pieces is lost if they have one of their own. -/
theorem ofPieces_of_doc {stop : Cursor} (h : ∃ t ∈ (ofPieces stop none ps).head?, t.doc ≠ none) :
    ofPieces stop doc ps = ofPieces stop none ps := by
  induction ps with
  | nil =>
    obtain ⟨t, ht, hdoc⟩ := h
    cases ht
    exact absurd rfl hdoc
  | cons p ps ih =>
    rw [ofPieces] at h
    rw [ofPieces, ofPieces]
    cases hp : p.piece with
    | lexeme l =>
      rw [hp] at h
      obtain ⟨t, ht, hdoc⟩ := h
      cases ht
      exact absurd rfl hdoc
    | comment raw =>
      rw [hp] at h
      dsimp only at h ⊢
      cases hraw : isDoc raw with
      | true => rfl
      | false => exact ih (by simpa [hraw] using h)
    | blank =>
      rw [hp] at h
      exact ih h
    | remark =>
      rw [hp] at h
      exact ih h

end Behind

/-! ## All tokens -/

/-- A piece that is there without a semicolon in it as well: no template, and no comment that
documents what follows it. -/
def Piece.isLoose : Piece → Bool
  | .lexeme (.template _ _) => false
  | .comment raw => !isDoc raw
  | _ => true

/-- The piece that holds offset `n` is loose. -/
def isLooseAt (n : Nat) (ps : List Placed) : Bool :=
  ps.all fun p => n < p.start.offset || p.stop.offset ≤ n || p.piece.isLoose

/-- The tokens of a text, with and without the semicolon at offset `n` that ends the given line.  If
it is a token, then `first` is what follows it. -/
inductive Dropped (n line : Nat) (first : Lexeme) : List Token → List Token → Prop
  | before {t : Token} {ts us : List Token} (offset : t.start.offset < n) (line_eq : t.line = line)
      (rest : Dropped n line first ts us) : Dropped n line first (t :: ts) (t :: us)
  | semicolon {t : Token} {ts us : List Token} (lexeme : t.lexeme = .punct ";")
      (offset : t.start.offset = n) (line_eq : t.line = line)
      (first_eq : ts.head?.map (·.lexeme) = some first)
      (rest : List.Forall₂ (Shifted n line) ts us) : Dropped n line first (t :: ts) us
  | inside {ts us : List Token} (rest : List.Forall₂ (Shifted n line) ts us) :
      Dropped n line first ts us

theorem Dropped.append {line : Nat} {first : Lexeme} {ts us vs : List Token}
    (hvs : ∀ t ∈ vs, t.start.offset < n ∧ t.line = line) (h : Dropped n line first ts us) :
    Dropped n line first (vs ++ ts) (vs ++ us) := by
  induction vs with
  | nil => exact h
  | cons t vs ih =>
    obtain ⟨ht, hvs⟩ := List.forall_mem_cons.1 hvs
    exact .before ht.1 ht.2 (ih hvs)

/-- A text begins on the line of the semicolon, or all of it stands behind that line. -/
theorem Dropped.shifted_or {line : Nat} {first : Lexeme} {ts us : List Token}
    (h : Dropped n line first ts us) :
    List.Forall₂ (Shifted n line) ts us ∨ ∀ t ∈ ts.head?, t.line = line := by
  cases h with
  | before offset line_eq => exact Or.inr (by simpa using line_eq)
  | semicolon lexeme offset line_eq => exact Or.inr (by simpa using line_eq)
  | inside hshifted => exact Or.inl hshifted

theorem pieces_cons_inv {here : Cursor} {rest : List Char} {ps : List Placed}
    (h : pieces here (c :: rest) = .ok ps) :
    ∃ p k more, pieceAt c rest = .ok (p, k) ∧
      pieces (here.advance ((c :: rest).take k)) (rest.drop (k - 1)) = .ok more ∧
      ps = ⟨p, here, here.advance ((c :: rest).take k)⟩ :: more := by
  cases pieces_eq_ok_iff.1 h with
  | cons hat hmore => exact ⟨_, _, _, hat, pieces_eq_ok_iff.2 hmore, rfl⟩

/-- A line break is a piece of its own. -/
theorem pieces_break {here : Cursor} {ps : List Placed} :
    pieces here ('\n' :: b) = .ok ps ↔
      ∃ more, pieces (here.advance ['\n']) b = .ok more ∧
        ps = ⟨.blank, here, here.advance ['\n']⟩ :: more := by
  have hat : pieceAt '\n' b = .ok (.blank, 1) := by rw [pieceAt, if_pos (by decide)]
  constructor
  · intro h
    obtain ⟨p, k, more, hp, hmore, rfl⟩ := pieces_cons_inv h
    cases hat.symm.trans hp
    exact ⟨more, hmore, rfl⟩
  · rintro ⟨more, hmore, rfl⟩
    exact pieces_cons hat hmore

theorem pieceAt_semicolon (b : List Char) :
    pieceAt ';' b = .ok (.lexeme (.punct ";"), 1) :=
  (pieceAt_append ';' [] b (.lexeme (.punct ";")) 1 nofun (Or.inr ⟨';', rfl, by decide⟩)
    (by decide)).1

section Dropped

variable {n line : Nat} {here : Cursor} {a b : List Char} {doc : Option String}
  {ps : List Placed} {first : Token} {more : List Token}

/-- The first token of a text says the same wherever the text stands. -/
theorem exists_first (hfirst : tokenizeFrom 1 b = .ok (first :: more))
    (h : pieces here b = .ok ps) :
    ∃ t ts, ofPieces (here.advance b) none ps = t :: ts ∧ t.lexeme = first.lexeme ∧
      t.doc = first.doc := by
  obtain ⟨alone, halone, hfirst⟩ := bind_eq_ok.1 hfirst
  obtain ⟨moved, hmoved, halike⟩ := pieces_alike halone here
  cases hmoved.symm.trans h
  have htokens := ofPieces_alike halike b none
  rw [Except.ok.inj hfirst] at htokens
  obtain ⟨t, ts, ht, -, htoken⟩ := List.forall₂_cons_left_iff.1 htokens
  exact ⟨t, ts, htoken, ht.lexeme, ht.doc⟩

/-- The semicolon is a token: a comment before it is left for what follows. -/
theorem dropped_nil (hfirst : tokenizeFrom 1 b = .ok (first :: more)) (hn : here.offset = n)
    (hline : here.line = line) (h : pieces here (';' :: '\n' :: b) = .ok ps)
    (hdoc : ∀ t ∈ ofPieces (here.advance (';' :: '\n' :: b)) doc ps, t.start.offset = n →
      t.doc = none ∨ first.doc ≠ none) :
    ∃ qs, pieces here ('\n' :: b) = .ok qs ∧ Dropped n line first.lexeme
      (ofPieces (here.advance (';' :: '\n' :: b)) doc ps)
      (ofPieces (here.advance ('\n' :: b)) doc qs) := by
  obtain ⟨p, k, rest, hat, hrest, rfl⟩ := pieces_cons_inv h
  cases (pieceAt_semicolon _).symm.trans hat
  obtain ⟨back, hback, rfl⟩ := pieces_break.1 hrest
  have hs : Shifts n line (here.advance [';', '\n']) (here.advance ['\n']) :=
    shifts_of_semicolon (a := []) hn hline []
  obtain ⟨back', hback', hshifted⟩ := shifted_of_pieces hs hback
  obtain ⟨t, ts, htokens, hlexeme, -⟩ := exists_first hfirst hback
  obtain ⟨u, us, htokens', -, hown⟩ := exists_first hfirst hback'
  refine ⟨_, pieces_break.2 ⟨back', hback', rfl⟩, ?_⟩
  have hkept : ofPieces (here.advance ('\n' :: b)) doc back' =
      ofPieces (here.advance ('\n' :: b)) none back' := by
    rcases hdoc _ List.mem_cons_self hn with hnone | hdoc
    · rw [show doc = none from hnone]
    · refine ofPieces_of_doc ⟨u, ?_, hown ▸ hdoc⟩
      exact congrArg List.head? htokens'
  refine .semicolon rfl hn hline ?_ (hkept ▸ hshifted none)
  exact (congrArg (·.head?.map (·.lexeme)) htokens).trans (congrArg some hlexeme)

/-- The semicolon stands in a remark or a comment: both texts go on alike behind it. -/
theorem dropped_over {stop : Cursor} (hn : here.offset + (r.length + 1) = n)
    (hline : here.line = line) (hover : RunsOver c r b p k) (hloose : p.isLoose = true)
    (h : pieces (here.advance ((c :: (r ++ ';' :: '\n' :: b)).take k))
      ((r ++ ';' :: '\n' :: b).drop (k - 1)) = .ok ps) (first : Lexeme) :
    ∃ qs, pieces here (c :: (r ++ '\n' :: b)) = .ok qs ∧ Dropped n line first
      (ofPieces (here.advance (c :: (r ++ ';' :: '\n' :: b))) doc (⟨p, here, stop⟩ :: ps))
      (ofPieces (here.advance (c :: (r ++ '\n' :: b))) doc qs) := by
  have hs := shifts_of_semicolon (a := c :: r) hn hline
  cases hover with
  | template => cases hloose
  | remark hat =>
    have htake : (c :: (r ++ ';' :: '\n' :: b)).take (r.length + 2) = c :: (r ++ [';']) := by
      rw [List.take_succ_cons, List.take_length_add_append]
      rfl
    have hdrop : (r ++ ';' :: '\n' :: b).drop (r.length + 2 - 1) = '\n' :: b :=
      List.drop_length_add_append (i := 1)
    have htake' : (c :: (r ++ '\n' :: b)).take (r.length + 1) = c :: r := by
      rw [List.take_succ_cons, List.take_left]
    have hdrop' : (r ++ '\n' :: b).drop (r.length + 1 - 1) = '\n' :: b := List.drop_left
    rw [htake, hdrop] at h
    obtain ⟨back, hback, rfl⟩ := pieces_break.1 h
    rw [← advance_append, List.cons_append, List.append_assoc] at hback
    obtain ⟨back', hback', hshifted⟩ := shifted_of_pieces (hs []) hback
    rw [advance_append] at hback'
    refine ⟨_, pieces_cons hat (htake' ▸ hdrop' ▸ pieces_break.2 ⟨back', hback', rfl⟩), .inside ?_⟩
    simpa [← advance_append, ofPieces] using hshifted doc
  | @comment raw raw' k hlong hat hdoc =>
    obtain ⟨j, rfl⟩ : ∃ j, k = r.length + (j + 2) := ⟨k - r.length - 2, by omega⟩
    have htake : (c :: (r ++ ';' :: '\n' :: b)).take (r.length + (j + 2) + 1) =
        c :: r ++ ';' :: '\n' :: b.take j := by
      rw [List.take_succ_cons, List.take_length_add_append]
      rfl
    have hdrop : (r ++ ';' :: '\n' :: b).drop (r.length + (j + 2) + 1 - 1) = b.drop j :=
      List.drop_length_add_append (i := j + 2)
    have htake' : (c :: (r ++ '\n' :: b)).take (r.length + (j + 2)) =
        c :: r ++ '\n' :: b.take j := by
      show (c :: (r ++ '\n' :: b)).take (r.length + (j + 1) + 1) = _
      rw [List.take_succ_cons, List.take_length_add_append]
      rfl
    have hdrop' : (r ++ '\n' :: b).drop (r.length + (j + 2) - 1) = b.drop j :=
      List.drop_length_add_append (i := j + 1)
    rw [htake, hdrop] at h
    obtain ⟨back', hback', hshifted⟩ := shifted_of_pieces (hs (b.take j)) h
    refine ⟨_, pieces_cons hat (htake' ▸ hdrop' ▸ hback'), .inside ?_⟩
    have hraw : isDoc raw = false := by simpa [Piece.isLoose] using hloose
    simpa [← advance_append, ofPieces, hdoc, hraw] using hshifted doc

/-- A piece that a text begins with comes first if the text goes on with a stopper. -/
theorem pieces_before (hremark : p ≠ .remark) (hat : pieceAt c r = .ok (p, k)) {y : Char}
    (hy : stopper y = true) (b : List Char) :
    pieces here (c :: r ++ y :: b) = .ok ps ↔
      ∃ more, pieces (here.advance ((c :: r).take k)) ((c :: r).drop k ++ y :: b) = .ok more ∧
        ps = ⟨p, here, here.advance ((c :: r).take k)⟩ :: more := by
  rw [List.cons_append]
  obtain ⟨hat', hpos, hle⟩ := pieceAt_append c r (y :: b) p k hremark (Or.inl (by simpa)) hat
  have htake : (c :: (r ++ y :: b)).take k = (c :: r).take k := by
    rw [← List.cons_append, List.take_append_of_le_length hle]
  have hdrop : (r ++ y :: b).drop (k - 1) = (c :: r).drop k ++ y :: b := by
    rw [← List.drop_append_of_le_length hle, ← Nat.sub_add_cancel hpos]
    rfl
  constructor
  · intro h
    obtain ⟨p', k', more, hp, hmore, rfl⟩ := pieces_cons_inv h
    cases hat'.symm.trans hp
    rw [htake, hdrop] at hmore
    exact ⟨more, hmore, by rw [htake]⟩
  · rintro ⟨more, hmore, rfl⟩
    have hcons := pieces_cons hat' (htake.symm ▸ hdrop.symm ▸ hmore)
    rwa [htake] at hcons

/-- A line is cut into the same tokens with and without the semicolon at its end. -/
theorem exists_dropped (hfirst : tokenizeFrom 1 b = .ok (first :: more)) (hbreak : '\n' ∉ a)
    (hn : here.offset + a.length = n) (hline : here.line = line)
    (h : pieces here (a ++ ';' :: '\n' :: b) = .ok ps) (hloose : isLooseAt n ps = true)
    (hdoc : ∀ t ∈ ofPieces (here.advance (a ++ ';' :: '\n' :: b)) doc ps, t.start.offset = n →
      t.doc = none ∨ first.doc ≠ none) :
    ∃ qs, pieces here (a ++ '\n' :: b) = .ok qs ∧ Dropped n line first.lexeme
      (ofPieces (here.advance (a ++ ';' :: '\n' :: b)) doc ps)
      (ofPieces (here.advance (a ++ '\n' :: b)) doc qs) := by
  induction hlen : a.length using Nat.strongRecOn generalizing here a ps doc with
  | ind length ih =>
  cases a with
  | nil => exact dropped_nil hfirst hn hline h hdoc
  | cons c r =>
    obtain ⟨p, k, rest, hat, hrest, hps⟩ := pieces_cons_inv h
    have hbreak' : '\n' ∉ r := fun hmem => hbreak (List.mem_cons_of_mem _ hmem)
    rcases pieceAt_of_semicolon hbreak' hat with ⟨hremark, hbefore⟩ | hover
    · clear hps
      obtain ⟨back, hback, rfl⟩ := (pieces_before hremark hbefore (by decide) _).1 h
      obtain ⟨hpos, hle⟩ := pieceAt_le hbefore
      have hstop : ∀ cs, here.advance (c :: r ++ cs) =
          (here.advance ((c :: r).take k)).advance ((c :: r).drop k ++ cs) := by
        intro cs
        rw [← advance_append, ← List.append_assoc, List.take_append_drop]
      have hn' : (here.advance ((c :: r).take k)).offset + ((c :: r).drop k).length = n := by
        rw [offset_advance, List.length_take_of_le hle, List.length_drop]
        rw [List.length_cons] at hn ⊢
        omega
      have hline' : (here.advance ((c :: r).take k)).line = line := by
        rw [line_advance, List.count_eq_zero.2 fun hmem => hbreak (List.mem_of_mem_take hmem)]
        exact hline
      rw [isLooseAt, List.all_cons, Bool.and_eq_true] at hloose
      rw [ofPieces_cons, hstop] at hdoc
      obtain ⟨qs, hqs, hdropped⟩ := ih _ (by rw [← hlen, List.length_drop, List.length_cons]; omega)
        (fun hmem => hbreak (List.mem_of_mem_drop hmem)) hn' hline' hback hloose.2
        (fun t ht => hdoc t (List.mem_append_right _ ht)) rfl
      refine ⟨_, (pieces_before hremark hbefore (by decide) _).2 ⟨qs, hqs, rfl⟩, ?_⟩
      rw [ofPieces_cons, ofPieces_cons, hstop, hstop]
      refine hdropped.append fun t ht => ?_
      have hstart : t.start = here := start_of_mem_tokensOf ht
      rw [List.length_cons] at hn
      exact ⟨by rw [hstart]; omega, (congrArg Cursor.line hstart).trans hline⟩
    · subst hps
      refine dropped_over hn hline hover ?_ hrest _
      have hstop : n < (here.advance ((c :: (r ++ ';' :: '\n' :: b)).take k)).offset := by
        rw [offset_advance, List.length_take_of_le (pieceAt_le hat).2]
        have := hover.lt
        rw [List.length_cons] at hn
        omega
      rw [List.length_cons] at hn
      simpa [isLooseAt, Nat.not_lt.2 (show here.offset ≤ n by omega), Nat.not_le.2 hstop] using
        (List.all_eq_true.1 hloose _ List.mem_cons_self)

end Dropped

end EventFlow.Token
