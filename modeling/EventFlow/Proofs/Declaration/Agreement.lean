import EventFlow.Proofs.Declaration.Line
import EventFlow.Proofs.Declaration.Mode
import EventFlow.Proofs.Token.Documented

/-! The search for declarations and the tokenizer agree on what is text.

The tokenizer cuts a source into pieces. At the end of each piece the search is back in code, and a
line that begins inside a piece begins in the mode of that piece:

    walk p code (piece ++ rest) = (lines that begin in the piece) ++ walk (p + length) code rest

So a line begins in a comment or a template of the search exactly if it begins inside one of the
tokenizer. The two do not agree on templates with substitutions, nor on texts in quotes that go on
after a backslash on the next line. -/

namespace EventFlow.Declaration

open Text Token

variable {placed : List Placed} {units : List Nat} {piece : Piece}

/-- The mode of the places inside a piece. -/
def pieceMode : Piece → Mode
  | .comment _ => .comment
  | .lexeme (.template _ _) => .quoted '`'
  | _ => .code

namespace Mode

variable {p n : Nat} {c q : Char} {rest w cs : List Char} {m : Mode}

/-! ## Runs of characters -/

theorem walk_code (hbreak : c ≠ '\n') (hquote : c ≠ '"' ∧ c ≠ '\'' ∧ c ≠ '`')
    (hslash : IsPlainSlash c rest) :
    walk p .code (c :: rest) = walk (p + 1) .code rest := by
  have hremark : ¬(c = '/' && rest.head? = some '/') = true := by
    simp only [Bool.and_eq_true, decide_eq_true_eq]
    exact fun h => (hslash h.1).1 h.2
  have hcomment : ¬(c = '/' && rest.head? = some '*') = true := by
    simp only [Bool.and_eq_true, decide_eq_true_eq]
    exact fun h => (hslash h.1).2 h.2
  have hmode : code? c = .code := by
    rw [code?, if_neg (by simp [hquote])]
  rw [walk, if_neg hbreak]
  simp only [if_neg hremark, if_neg hcomment, hmode]

/-- Neither a quote nor a slash nor the end of a line. -/
def isPlain (c : Char) : Bool := !(['"', '\'', '`', '/', '\n'].contains c)

theorem walk_plain (hw : ∀ c ∈ w, isPlain c = true) (rest : List Char) :
    walk p .code (w ++ rest) = walk (p + w.length) .code rest := by
  induction w generalizing p with
  | nil => rfl
  | cons c w ih =>
    have hc := hw c List.mem_cons_self
    simp only [isPlain, List.contains_eq_mem, Bool.not_eq_true', decide_eq_false_iff_not,
      List.mem_cons, List.not_mem_nil, or_false, not_or] at hc
    obtain ⟨h1, h2, h3, h4, h5⟩ := hc
    rw [List.cons_append, walk_code h5 ⟨h1, h2, h3⟩ (fun h => absurd h h4),
      ih fun x hx => hw x (List.mem_cons_of_mem _ hx), List.length_cons]
    congr 1
    omega

theorem isPlain_of_isNumeric (h : LineState.isNumeric c = true) : isPlain c = true := by
  have hinert := (LineState.isInert_of_isNumeric h).1
  simp only [LineState.isInert, isPlain, List.contains_eq_mem, Bool.not_eq_true',
    decide_eq_false_iff_not, List.mem_cons, List.not_mem_nil, or_false, not_or] at hinert ⊢
  refine ⟨hinert.1, hinert.2.1, hinert.2.2.1, hinert.2.2.2.2.2.2.2, ?_⟩
  rintro rfl
  exact absurd h (by decide)

/-! ## Texts in quotes -/

theorem walk_quoted (hbreak : c ≠ '\n') (hescape : c ≠ '\\') :
    walk p (.quoted q) (c :: rest) = walk (p + 1) (if c = q then .code else .quoted q) rest := by
  rw [walk, if_neg hbreak]
  simp only [if_neg hescape]

theorem walk_escape (h : rest.head? ≠ some '\n') :
    walk p (.quoted q) ('\\' :: rest) = walk (p + 2) (.quoted q) (rest.drop 1) := by
  rw [walk, if_neg (by decide)]
  simp only [if_true, if_neg h]

theorem walk_inside (hw : ∀ c ∈ w, c ≠ '\n' ∧ c ≠ '\\' ∧ c ≠ q) (rest : List Char) :
    walk p (.quoted q) (w ++ rest) = walk (p + w.length) (.quoted q) rest := by
  induction w generalizing p with
  | nil => rfl
  | cons c w ih =>
    obtain ⟨hbreak, hescape, hq⟩ := hw c List.mem_cons_self
    rw [List.cons_append, walk_quoted hbreak hescape, if_neg hq,
      ih fun x hx => hw x (List.mem_cons_of_mem _ hx), List.length_cons]
    congr 1
    omega

/-- An escape that does not break the line leaves the search in the text that it stands in. -/
theorem walk_escaped (hq : q = '\'' ∨ q = '"' ∨ q = '`') {e : List Char} (h : IsEscape e units)
    (hbreak : e.head? ≠ some '\n') (rest : List Char) :
    walk p (.quoted q) ('\\' :: (e ++ rest)) = walk (p + 1 + e.length) (.quoted q) rest := by
  obtain ⟨c, t, rfl, hdigits⟩ := h.digits
  rw [List.cons_append]
  have ht : ∀ x ∈ t, x ≠ '\n' ∧ x ≠ '\\' ∧ x ≠ q := by
    intro x hx
    have hx := hdigits x hx
    refine ⟨?_, ?_, ?_⟩ <;> rintro rfl
    · exact absurd hx (by decide)
    · exact absurd hx (by decide)
    · rcases hq with rfl | rfl | rfl <;> exact absurd hx (by decide)
  have hescape : walk p (.quoted q) ('\\' :: c :: (t ++ rest)) =
      walk (p + 2) (.quoted q) (t ++ rest) := walk_escape hbreak
  rw [hescape, show p + 1 + (c :: t).length = p + 2 + t.length by simp; omega]
  exact walk_inside ht rest

/-- A text in quotes, from the opening quote on, is over for both at the same place. -/
theorem walk_stringBody (hq : q = '\'' ∨ q = '"') (h : StringBody q w units)
    (hwhole : ¬['\\', '\n'] <:+: w) (rest : List Char) :
    walk p (.quoted q) (w ++ rest) = walk (p + w.length) .code rest := by
  induction h generalizing p with
  | close hn =>
    rw [List.singleton_append, walk_quoted hn (by rcases hq with rfl | rfl <;> decide), if_pos rfl]
    rfl
  | @escape e w units more _ he _ ih =>
    rw [List.infix_cons_iff, not_or, pair_prefix_iff] at hwhole
    have hbreak : e.head? ≠ some '\n' := by
      obtain ⟨c, t, rfl, -⟩ := he.digits
      exact fun h => hwhole.1 ⟨rfl, h⟩
    have hinner : ¬['\\', '\n'] <:+: w := fun h =>
      hwhole.2 (h.trans (List.suffix_append _ _).isInfix)
    rw [List.cons_append, List.append_assoc,
      walk_escaped (hq.elim Or.inl fun h => Or.inr (Or.inl h)) he hbreak, ih hinner,
      List.length_cons, List.length_append]
    congr 1
    omega
  | char hn hcq hb _ ih =>
    rw [List.infix_cons_iff, not_or] at hwhole
    rw [List.cons_append, walk_quoted hn hb, if_neg hcq, ih hwhole.2, List.length_cons]
    congr 1
    omega

/-! ## Pieces with line breaks in them -/

/-- From `cs` on, `n` characters belong to a piece of mode `m`; after them comes code. -/
def Leaves (p : Nat) (m : Mode) (cs : List Char) (n : Nat) : Prop :=
  ∃ inner, walk p m cs = inner ++ walk (p + n) .code (cs.drop n) ∧
    ∀ x ∈ inner, p < x.1 ∧ x.1 < p + n ∧ x.2 = m

theorem Leaves.now (h : walk p m cs = walk (p + n) .code (cs.drop n)) : Leaves p m cs n :=
  ⟨[], h, by simp⟩

/-- The piece goes on after a character that does not end it. -/
theorem Leaves.cons {k : Nat} (hn : 0 < n) (h : Leaves (p + k) m (cs.drop k) n)
    (breaks : List (Nat × Mode)) (hwalk : walk p m cs = breaks ++ walk (p + k) m (cs.drop k))
    (hbreaks : ∀ x ∈ breaks, p < x.1 ∧ x.1 ≤ p + k ∧ x.2 = m) : Leaves p m cs (k + n) := by
  obtain ⟨inner, hinner, hmem⟩ := h
  refine ⟨breaks ++ inner, ?_, fun x hx => ?_⟩
  · rw [hwalk, hinner, List.append_assoc, List.drop_drop, Nat.add_assoc]
  · rcases List.mem_append.1 hx with hx | hx
    · obtain ⟨h1, h2, h3⟩ := hbreaks x hx
      exact ⟨h1, by omega, h3⟩
    · obtain ⟨h1, h2, h3⟩ := hmem x hx
      exact ⟨by omega, by omega, h3⟩

theorem leaves_comment (h : ¬ ['*', '/'] <:+: w ++ ['*']) (rest : List Char) :
    Leaves p .comment (w ++ '*' :: '/' :: rest) (w.length + 2) := by
  induction w generalizing p with
  | nil =>
    refine Leaves.now ?_
    rw [List.nil_append, walk, if_neg (by decide)]
    rfl
  | cons a w ih =>
    rw [List.cons_append, List.infix_cons_iff, not_or, pair_prefix_iff] at h
    have hend : ¬ (a = '*' ∧ (w ++ '*' :: '/' :: rest).head? = some '/') := by
      cases w <;> exact h.1
    rw [List.length_cons, Nat.add_right_comm, Nat.add_comm]
    by_cases ha : a = '\n'
    · refine Leaves.cons (by omega) (ih h.2) [(p + 1, .comment)] ?_ (by simp)
      rw [List.cons_append, walk, if_pos ha]
      rfl
    · refine Leaves.cons (by omega) (ih h.2) [] ?_ (by simp)
      rw [List.cons_append, walk, if_neg ha]
      simp only [Bool.and_eq_true, decide_eq_true_eq, if_neg hend]
      rfl

theorem leaves_template (h : TemplateBody w units false) (rest : List Char) :
    Leaves p (.quoted '`') (w ++ rest) w.length := by
  generalize hmarked : false = marked at h
  induction h generalizing p with
  | close =>
    refine Leaves.now ?_
    rw [List.singleton_append, walk_quoted (by decide) (by decide), if_pos rfl]
    rfl
  | @escape e w units more marked he hw ih =>
    have hdrop : ('\\' :: (e ++ w) ++ rest).drop (1 + e.length) = w ++ rest := by
      rw [Nat.add_comm, List.cons_append, List.append_assoc, List.drop_succ_cons, List.drop_left]
    rw [show ('\\' :: (e ++ w)).length = 1 + e.length + w.length by simp; omega]
    refine Leaves.cons hw.length_pos (hdrop ▸ ih hmarked)
      (if e.head? = some '\n' then [(p + 2, .quoted '`')] else []) ?_ ?_
    · rw [hdrop, ← Nat.add_assoc, List.cons_append, List.append_assoc]
      by_cases hbreak : e.head? = some '\n'
      · -- an escaped line break is an escape of one character
        obtain ⟨t, rfl⟩ := List.head?_eq_some_iff.1 hbreak
        have hread : Except.ok ([], 1) = _ := he.read []
        obtain rfl : t = [] := by simpa using (Prod.mk.inj (Except.ok.inj hread)).2
        rw [if_pos hbreak, walk, if_neg (by decide)]
        simp only [if_true, List.cons_append, List.head?_cons]
        rw [walk, if_pos rfl]
        rfl
      · rw [if_neg hbreak]
        exact walk_escaped (Or.inr (Or.inr rfl)) he hbreak _
    · intro x hx
      split at hx
      · next hbreak =>
        obtain ⟨t, rfl⟩ := List.head?_eq_some_iff.1 hbreak
        obtain rfl := List.mem_singleton.1 hx
        exact ⟨by omega, by simp only [List.length_cons]; omega, rfl⟩
      · cases hx
  | substitution => cases hmarked
  | @char c w more marked hq hb hd hw ih =>
    rw [List.length_cons, Nat.add_comm]
    by_cases hc : c = '\n'
    · refine Leaves.cons hw.length_pos (ih hmarked) [(p + 1, .quoted '`')] ?_ (by simp)
      rw [List.cons_append, walk, if_pos hc]
      rfl
    · refine Leaves.cons hw.length_pos (ih hmarked) [] ?_ (by simp)
      rw [List.cons_append, walk_quoted hc hb, if_neg hq]
      rfl

/-! ## One piece -/

/-- The piece is none of those on which the search and the tokenizer differ. -/
def isShared (cs : List Char) (n : Nat) : Piece → Prop
  | .lexeme (.template _ marked) => marked = false
  | .lexeme (.text _) => ¬['\\', '\n'] <:+: cs.take n
  | _ => True

/-- The first `n` characters are a piece of mode `m`, before and after which there is code. -/
def Spans (p : Nat) (m : Mode) (cs : List Char) (n : Nat) : Prop :=
  ∃ inner, walk p .code cs = inner ++ walk (p + n) .code (cs.drop n) ∧
    ∀ x ∈ inner, p < x.1 ∧ x.1 < p + n ∧ x.2 = m

theorem Spans.now (h : walk p .code cs = walk (p + n) .code (cs.drop n)) : Spans p m cs n :=
  ⟨[], h, by simp⟩

theorem Spans.of_leaves {k : Nat} (hopen : walk p .code cs = walk (p + k) m (cs.drop k))
    (h : Leaves (p + k) m (cs.drop k) n) : Spans p m cs (k + n) := by
  obtain ⟨inner, hinner, hmem⟩ := h
  refine ⟨inner, ?_, fun x hx => ?_⟩
  · rw [hopen, hinner, List.drop_drop, Nat.add_assoc]
  · obtain ⟨h1, h2, h3⟩ := hmem x hx
    exact ⟨by omega, by omega, h3⟩

theorem walk_open (hq : q = '"' ∨ q = '\'' ∨ q = '`') :
    walk p .code (q :: rest) = walk (p + 1) (.quoted q) rest := by
  rcases hq with rfl | rfl | rfl <;> (rw [walk, if_neg (by decide)]; simp [code?])

theorem spans_plain (hle : n ≤ (c :: rest).length)
    (h : ∀ x ∈ (c :: rest).take n, isPlain x = true) : Spans p m (c :: rest) n := by
  refine Spans.now ?_
  have hsplit := List.take_append_drop n (c :: rest)
  have hlength : ((c :: rest).take n).length = n := List.length_take_of_le hle
  conv => lhs; rw [← hsplit, walk_plain h, hlength]

theorem spans_punct {mark : String} (h : punctAt? (c :: rest) = some mark)
    (hquote : c ≠ '"' ∧ c ≠ '\'' ∧ c ≠ '`')
    (hslash : IsPlainSlash c rest) :
    Spans p m (c :: rest) mark.length := by
  obtain ⟨⟨more, hmore⟩, hmem | ⟨rfl, hshort, -⟩⟩ := punctAt?_cases h
  · have hfacts : ∀ mark ∈ longMarks, mark.toList.all isPlain = true := by decide
    refine Spans.now ?_
    rw [← hmore, walk_plain (List.all_eq_true.1 (hfacts mark hmem)), String.length_toList,
      ← String.length_toList, List.drop_left]
  · refine Spans.now ?_
    rw [String.length_singleton]
    refine walk_code ?_ hquote hslash
    rintro rfl
    exact absurd hshort (by decide)

theorem spans_lexeme {l : Lexeme} (h : LexemeAt c rest l n)
    (hslash : IsPlainSlash c rest)
    (hshared : isShared (c :: rest) n (.lexeme l)) :
    Spans p (pieceMode (.lexeme l)) (c :: rest) n := by
  have hle := h.bounds.2
  cases h with
  | @text w rest units hq hw =>
    rw [isShared, List.take_succ_cons, List.take_left, List.infix_cons_iff, not_or] at hshared
    refine Spans.now ?_
    rw [walk_open (by tauto), walk_stringBody hq hw hshared.2, List.drop_succ_cons, List.drop_left,
      Nat.add_assoc, Nat.add_comm 1]
  | @template w rest units marked hc hw =>
    obtain rfl : marked = false := hshared
    obtain rfl := hc
    rw [Nat.add_comm]
    exact Spans.of_leaves (walk_open (Or.inr (Or.inr rfl))) (leaves_template hw rest)
  | number _ _ hread =>
    exact spans_plain hle fun x hx => isPlain_of_isNumeric (LineState.readNumber_numeric hread x hx)
  | name _ _ hname =>
    exact spans_plain hle fun x hx =>
      isPlain_of_isNumeric (LineState.isNumeric_of_name hname rest x hx)
  | punct hc _ _ hmark => exact spans_punct hmark (isQuote_eq_false_iff.1 hc) hslash

theorem spans_piece (h : pieceAt c rest = .ok (piece, n)) (hc : c ≠ '\n')
    (hshared : isShared (c :: rest) n piece) : Spans p (pieceMode piece) (c :: rest) n := by
  cases pieceAt_eq_ok_iff.1 h with
  | blank hblank =>
    have hall : ['"', '\'', '`', '/'].any isBlank = false := by decide
    have hne : ∀ x, x ∈ ['"', '\'', '`', '/'] → c ≠ x := by
      rintro x hx rfl
      exact List.any_eq_false.1 hall c hx hblank
    refine Spans.now (walk_code hc ?_ fun h => absurd h (hne '/' (by decide)))
    exact ⟨hne _ (by decide), hne _ (by decide), hne _ (by decide)⟩
  | @remark w rest hw hrest =>
    refine Spans.now ?_
    rw [walk, if_neg hc]
    simp only [List.head?_cons, decide_true, Bool.and_self, if_true]
    have hline : firstLine ('/' :: w ++ rest) = '/' :: w :=
      takeWhile_line (by simpa using hw) hrest
    rw [← List.cons_append, hline, List.drop_left, List.drop_succ_cons]
    congr 1
    · simp only [List.length_cons]
      omega
    · exact List.drop_left.symm
  | @comment w rest hw =>
    rw [show w.length + 4 = 2 + (w.length + 2) by omega]
    refine Spans.of_leaves ?_ (leaves_comment hw rest)
    rw [walk, if_neg (by decide)]
    rfl
  | lexeme _ hopen hl => exact spans_lexeme hl (opensRemark_eq_false_iff.1 hopen) hshared

theorem lt_of_mem_walk {x : Nat × Mode} (h : x ∈ walk p m cs) : p < x.1 := by
  fun_induction walk p m cs with
  | case1 => cases h
  | case2 p m rest ih =>
    rcases List.mem_cons.1 h with rfl | h
    · exact Nat.lt_succ_self p
    · exact Nat.lt_of_succ_lt (ih h)
  | case8 p c rest hc hremark ih =>
    have := ih h
    omega
  | case3 _ _ _ _ _ ih | case4 _ _ _ _ _ ih | case5 _ _ _ _ _ ih | case6 _ _ _ _ _ ih
  | case7 _ _ _ _ _ _ ih | case9 _ _ _ _ _ _ ih | case10 _ _ _ _ _ _ ih =>
    have := ih h
    omega

end Mode

/-! ## All pieces -/

/-- The piece covers a place that is not at one of its ends. -/
def Covers (x : Placed) (p : Nat) : Prop := x.start.offset < p ∧ p < x.stop.offset

/-- The mode is that of the piece that covers the place; no piece covers a place in code. -/
structure Tells (placed : List Placed) (p : Nat) (m : Mode) : Prop where
  mode : ∀ x ∈ placed, Covers x p → pieceMode x.piece = m
  covered : m ≠ .code → ∃ x ∈ placed, Covers x p

theorem Tells.cons {first : Placed} {p : Nat} {m : Mode} (h : Tells placed p m)
    (hp : first.stop.offset ≤ p) : Tells (first :: placed) p m := by
  refine ⟨fun x hx hcovers => ?_, fun hm => ?_⟩
  · rcases List.mem_cons.1 hx with rfl | hx
    · have := hcovers.2
      omega
    · exact h.mode x hx hcovers
  · obtain ⟨x, hx, hcovers⟩ := h.covered hm
    exact ⟨x, List.mem_cons_of_mem _ hx, hcovers⟩

/-- The text that a piece is cut from. -/
def isSharedIn (source : List Char) (x : Placed) : Prop :=
  Mode.isShared (source.drop x.start.offset) (x.stop.offset - x.start.offset) x.piece

theorem offset_le_of_mem_pieces {here : Cursor} {cs : List Char} (h : pieces here cs = .ok placed) :
    ∀ x ∈ placed, here.offset ≤ x.start.offset := by
  rw [pieces_eq_ok_iff] at h
  induction h with
  | nil => simp
  | cons _ _ ih =>
    intro x hx
    rcases List.mem_cons.1 hx with rfl | hx
    · exact Nat.le_refl _
    · have hstop := ih x hx
      rw [offset_advance] at hstop
      exact Nat.le_of_add_right_le hstop

theorem tells_of_mem_walk (source : List Char) {here : Cursor} {cs : List Char}
    (h : pieces here cs = .ok placed) (hcs : cs = source.drop here.offset)
    (hshared : ∀ x ∈ placed, isSharedIn source x) :
    ∀ x ∈ Mode.walk here.offset .code cs, Tells placed x.1 x.2 := by
  rw [pieces_eq_ok_iff] at h
  induction h with
  | nil here =>
    rw [Mode.walk]
    simp
  | @cons here c rest piece n more hat hmore ih =>
    let stop := here.advance ((c :: rest).take n)
    have hfirst : Mode.isShared (c :: rest) (stop.offset - here.offset) piece := by
      have := hshared _ List.mem_cons_self
      rwa [isSharedIn, ← hcs] at this
    obtain ⟨hpos, hle⟩ := pieceAt_le hat
    have hoffset : stop.offset = here.offset + n := by
      rw [offset_advance, List.length_take_of_le hle]
    rw [hoffset, Nat.add_sub_cancel_left] at hfirst
    have hrest := (drop_pred hpos c rest).symm
    have hdrop : rest.drop (n - 1) = source.drop stop.offset := by
      rw [hoffset, ← List.drop_drop, ← hcs, hrest]
    have hmore' : ∀ x ∈ more, isSharedIn source x :=
      fun x hx => hshared x (List.mem_cons_of_mem _ hx)
    have hafter : ∀ x ∈ Mode.walk stop.offset .code (rest.drop (n - 1)),
        Tells (⟨piece, here, stop⟩ :: more) x.1 x.2 := fun x hx =>
      (ih hdrop hmore' x hx).cons (Nat.le_of_lt (Mode.lt_of_mem_walk hx))
    -- no piece after the first one reaches back into it
    have hlater : ∀ x ∈ more, stop.offset ≤ x.start.offset :=
      offset_le_of_mem_pieces (pieces_eq_ok_iff.2 hmore)
    by_cases hc : c = '\n'
    · subst hc
      have hblank : piece = .blank ∧ n = 1 := by
        have : pieceAt '\n' rest = .ok (.blank, 1) := rfl
        rw [this] at hat
        cases hat
        exact ⟨rfl, rfl⟩
      obtain ⟨rfl, rfl⟩ := hblank
      intro x hx
      rw [Mode.walk, if_pos rfl, List.mem_cons] at hx
      rcases hx with rfl | hx
      · refine ⟨fun y hy hcovers => ?_, fun hm => absurd rfl hm⟩
        rcases List.mem_cons.1 hy with rfl | hy
        · rfl
        · have h1 := hlater y hy
          have h2 := hcovers.1
          dsimp only at h2
          omega
      · exact hafter x (by rw [hoffset]; exact hx)
    · obtain ⟨inner, hwalk, hinner⟩ := Mode.spans_piece (p := here.offset) hat hc hfirst
      intro x hx
      rw [hwalk, List.mem_append, ← hoffset, hrest] at hx
      rcases hx with hx | hx
      · obtain ⟨h1, h2, hmode⟩ := hinner x hx
        have hcovers : Covers ⟨piece, here, stop⟩ x.1 := ⟨h1, by rw [hoffset]; exact h2⟩
        refine ⟨fun y hy hy' => ?_, fun _ => ⟨_, List.mem_cons_self, hcovers⟩⟩
        rcases List.mem_cons.1 hy with rfl | hy
        · exact hmode.symm
        · have h3 := hlater y hy
          have h4 := hy'.1
          omega
      · exact hafter x hx

/-! ## The tokens -/

/-- A token stands where the piece stands that it is made from. -/
theorem mem_ofPieces {stop : Cursor} {doc : Option String} {l : Lexeme} (hl : l ≠ .eof)
    {start : Cursor} {last : Nat} :
    (∃ t ∈ ofPieces stop doc placed, t.lexeme = l ∧ t.start = start ∧ t.stop = last) ↔
      ∃ x ∈ placed, x.piece = .lexeme l ∧ x.start = start ∧ x.stop.offset = last := by
  induction placed generalizing doc with
  | nil =>
    simp only [ofPieces, List.mem_singleton, exists_eq_left, List.not_mem_nil, false_and,
      exists_false, iff_false]
    exact fun h => hl h.1.symm
  | cons x placed ih =>
    rw [ofPieces]
    split
    · next l' hx => simp [hx, ih]
    · next raw hx => simp [hx, ih]
    · next hx => simp [hx, ih]
    · next hx => simp [hx, ih]

theorem pieceMode_eq_comment : pieceMode piece = .comment ↔ ∃ raw, piece = .comment raw := by
  cases piece with
  | lexeme l => cases l <;> simp [pieceMode]
  | _ => simp [pieceMode]

theorem pieceMode_eq_quoted {q : Char} :
    pieceMode piece = .quoted q ↔
      q = '`' ∧ ∃ value marked, piece = .lexeme (.template value marked) := by
  cases piece with
  | lexeme l => cases l <;> simp [pieceMode, eq_comm]
  | _ => simp [pieceMode]

/-- Where a line begins. -/
def lineStart (lines : List String) (i : Nat) : Nat :=
  ((lines.take i).map fun line => line.length + 1).sum

/-- The state of the search after the lines before the given one. -/
def stateBefore (lines : List String) (i : Nat) : LineState :=
  (lines.take i).foldl LineState.consume {}

theorem exists_mode {source : String} (h : pieces (.start 1) source.toList = .ok placed)
    (hshared : ∀ x ∈ placed, isSharedIn source.toList x) {i : Nat}
    (hi : i < (Text.lines source).length) :
    ∃ m, Tells placed (lineStart (Text.lines source) i) m ∧
      (stateBefore (Text.lines source) i).In m := by
  cases i with
  | zero =>
    refine ⟨.code, ⟨fun x _ hx => ?_, fun hm => absurd rfl hm⟩, ⟨rfl, rfl⟩⟩
    exact absurd hx.1 (Nat.not_lt_zero _)
  | succ k =>
    have hstart : LineState.In {} .code := ⟨rfl, rfl⟩
    have hk : k + 1 < (Text.cut '\n' source.toList).length := by simpa [Text.lines] using hi
    obtain ⟨m, hmem, hin⟩ := Mode.foldl_consume hstart 0 (Text.cut '\n' source.toList) k hk
    rw [← Mode.walk_eq_starts] at hmem
    refine ⟨m, ?_, ?_⟩
    · have htells := tells_of_mem_walk source.toList h rfl hshared _ hmem
      simpa [lineStart, Text.lines, ← List.map_take, Function.comp_def] using htells
    · simpa [stateBefore, Text.lines, ← List.map_take] using hin

end EventFlow.Declaration

namespace EventFlow

/-- The characters of a token. -/
def Token.spelling (source : String) (t : Token) : List Char :=
  (source.toList.drop t.start.offset).take (t.stop - t.start.offset)

open Token Declaration in
/-- At the start of each line, the search for declarations is in a comment or a template exactly
if the tokenizer is. -/
theorem Declaration.stateBefore_agrees {source : String} {tokens : List Token}
    (h : tokenize source = .ok tokens)
    (htemplates : ∀ t ∈ tokens, ∀ value, t.lexeme ≠ .template value true)
    (htexts : ∀ t ∈ tokens, ∀ value, t.lexeme = .text value →
      ¬['\\', '\n'] <:+: t.spelling source) :
    ∃ placed, pieces (.start 1) source.toList = .ok placed ∧
      ∀ i < (Text.lines source).length,
        let state := stateBefore (Text.lines source) i
        let place := lineStart (Text.lines source) i
        (state.inComment = true ↔ ∃ x ∈ placed, (∃ raw, x.piece = .comment raw) ∧
          x.start.offset < place ∧ place < x.stop.offset) ∧
        (state.quote = some '`' ↔
          ∃ t ∈ tokens, (∃ value marked, t.lexeme = .template value marked) ∧
            t.start.offset < place ∧ place < t.stop) ∧
        (state.quote ≠ some '`' → state.quote = none) := by
  obtain ⟨placed, hplaced, htokens⟩ := bind_eq_ok.1 h
  cases htokens
  have hshared : ∀ x ∈ placed, isSharedIn source.toList x := by
    intro x hx
    unfold isSharedIn
    cases hp : x.piece with
    | lexeme l =>
      cases l with
      | template value marked =>
        obtain ⟨t, ht, hl, -⟩ := (mem_ofPieces (by simp)).2 ⟨x, hx, hp, rfl, rfl⟩
        cases marked with
        | false => rfl
        | true => exact absurd hl (htemplates t ht value)
      | text value =>
        obtain ⟨t, ht, hl, hstart, hstop⟩ := (mem_ofPieces (by simp)).2 ⟨x, hx, hp, rfl, rfl⟩
        have := htexts t ht value hl
        rwa [Token.spelling, hstart, hstop] at this
      | _ => trivial
    | _ => trivial
  refine ⟨placed, hplaced, fun i hi => ?_⟩
  obtain ⟨m, htells, hin⟩ := exists_mode hplaced hshared hi
  dsimp only
  refine ⟨?_, ?_, ?_⟩
  · rw [hin.comment, decide_eq_true_eq]
    constructor
    · rintro rfl
      obtain ⟨x, hx, hcovers⟩ := htells.covered (by simp)
      exact ⟨x, hx, pieceMode_eq_comment.1 (htells.mode x hx hcovers), hcovers⟩
    · rintro ⟨x, hx, hraw, hcovers⟩
      rw [← htells.mode x hx hcovers]
      exact pieceMode_eq_comment.2 hraw
  · constructor
    · intro hquote
      obtain rfl := hin.eq_quoted hquote
      obtain ⟨x, hx, hcovers⟩ := htells.covered (by simp)
      obtain ⟨-, value, marked, hp⟩ := pieceMode_eq_quoted.1 (htells.mode x hx hcovers)
      obtain ⟨t, ht, hl, hstart, hstop⟩ := (mem_ofPieces (by simp)).2 ⟨x, hx, hp, rfl, rfl⟩
      exact ⟨t, ht, ⟨value, marked, hl⟩, hstart ▸ hcovers.1, hstop ▸ hcovers.2⟩
    · rintro ⟨t, ht, ⟨value, marked, hl⟩, hstart, hstop⟩
      obtain ⟨x, hx, hp, hxstart, hxstop⟩ := (mem_ofPieces (by simp)).1 ⟨t, ht, hl, rfl, rfl⟩
      have hmode := htells.mode x hx ⟨hxstart ▸ hstart, hxstop ▸ hstop⟩
      rw [hin.quote, ← hmode, hp]
      rfl
  · intro hquote
    cases hs : (stateBefore (Text.lines source) i).quote with
    | none => rfl
    | some q =>
      obtain rfl := hin.eq_quoted hs
      obtain ⟨x, hx, hcovers⟩ := htells.covered (by simp)
      obtain ⟨rfl, -⟩ := pieceMode_eq_quoted.1 (htells.mode x hx hcovers)
      exact absurd hs hquote

/-- A comment with quotes in it, a text with the start of a comment, and a template with both. -/
def Declaration.crossed : String :=
  "/* don't\n`open */ const a = '/*';\nconst b = `// \\\n*/ \\` '`;\n"

open Token Declaration in
theorem Declaration.stateBefore_agrees_crossed :
    ∃ tokens placed, tokenize crossed = .ok tokens ∧
      pieces (.start 1) crossed.toList = .ok placed ∧
      (∃ x ∈ placed, (∃ raw, x.piece = .comment raw) ∧
        x.start.offset < 9 ∧ 9 < x.stop.offset) ∧
      ∃ t ∈ tokens, (∃ value marked, t.lexeme = .template value marked) ∧
        t.start.offset < 50 ∧ 50 < t.stop := by
  have hmap : (tokenize crossed).toOption.map (fun ts => ts.all fun t =>
      (match t.lexeme with
      | .template _ marked => !marked
      | .text _ => !(decide (['\\', '\n'] <:+: t.spelling crossed))
      | _ => true)) = some true := by decide +kernel
  obtain ⟨tokens, htokens, hall⟩ := Option.map_eq_some_iff.1 hmap
  have h := toOption_eq_some htokens
  have hfacts := List.all_eq_true.1 hall
  obtain ⟨placed, hplaced, hlines⟩ := Declaration.stateBefore_agrees h
    (fun t ht value hl => by
      have := hfacts t ht
      rw [hl] at this
      cases this)
    (fun t ht value hl => by
      have := hfacts t ht
      rw [hl] at this
      simpa using this)
  have hcomment : (stateBefore (Text.lines crossed) 1).inComment = true := by decide +kernel
  have hquote : (stateBefore (Text.lines crossed) 3).quote = some '`' := by decide +kernel
  have hstart : lineStart (Text.lines crossed) 1 = 9 ∧ lineStart (Text.lines crossed) 3 = 50 := by
    decide +kernel
  have hsecond := (hlines 1 (by decide +kernel)).1.1 hcomment
  have hfourth := (hlines 3 (by decide +kernel)).2.1.1 hquote
  rw [hstart.1] at hsecond
  rw [hstart.2] at hfourth
  exact ⟨tokens, placed, h, hplaced, hsecond, hfourth⟩

end EventFlow
