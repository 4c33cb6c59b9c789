import EventFlow.Proofs.Token.Pieces
import Mathlib.Data.List.Induction

/-! Where tokens stand, and what stands between them.

`Laid line before cs ts` says that the tokens `ts` follow one another in the text `cs`, with nothing
but blanks, remarks and comments between them; `before` is the text that stands before `cs`:

    cs = layout₀ ++ word₁ ++ layout₁ ++ word₂ ++ ... ++ layoutₙ        ts = [t₁, t₂, ..., eof]

The tokens of a source text are laid in it from its start, and each of them says where it stands. -/

namespace EventFlow

open Cursor

/-! ## Places -/

/-- The place with the given offset: its line and column are those of the character there. -/
structure Cursor.IsIn (c : Cursor) (line : Nat) (source : List Char) : Prop where
  offset_le : c.offset ≤ source.length
  line_eq : c.line = line + (source.take c.offset).count '\n'
  /-- The column is counted from the last line break before the place. -/
  column_eq : ∃ above before, source.take c.offset = above ++ before ∧
    (above = [] ∨ above.getLast? = some '\n') ∧ '\n' ∉ before ∧
    c.column = c.offset - above.length + 1

namespace Token

theorem column_advance (line : Nat) (cs : List Char) :
    ∃ above before, cs = above ++ before ∧ (above = [] ∨ above.getLast? = some '\n') ∧
      '\n' ∉ before ∧ ((Cursor.start line).advance cs).column = before.length + 1 := by
  induction cs using List.reverseRecOn with
  | nil => exact ⟨[], [], rfl, Or.inl rfl, by simp, rfl⟩
  | append_singleton cs c ih =>
    obtain ⟨above, before, hcs, habove, hbefore, hcolumn⟩ := ih
    rw [advance_append]
    by_cases hc : c = '\n'
    · subst hc
      refine ⟨cs ++ ['\n'], [], by simp, Or.inr (by simp), by simp, ?_⟩
      show (step _ '\n').column = 1
      rw [step, if_pos rfl]
    · refine ⟨above, before ++ [c], by simp [hcs], habove, by simp [hbefore, Ne.symm hc], ?_⟩
      show (step _ c).column = _
      rw [step, if_neg hc, hcolumn, List.length_append]
      rfl

theorem offset_advance_start (line : Nat) (cs : List Char) :
    ((Cursor.start line).advance cs).offset = cs.length :=
  (offset_advance _ _).trans (Nat.zero_add _)

theorem isIn_advance (line : Nat) (a b : List Char) :
    ((Cursor.start line).advance a).IsIn line (a ++ b) := by
  have hoffset := offset_advance_start line a
  have htake : (a ++ b).take a.length = a := List.take_left
  obtain ⟨above, before, ha, habove, hbefore, hcolumn⟩ := column_advance line a
  refine ⟨by simp [hoffset], ?_, above, before, ?_, habove, hbefore, ?_⟩
  · rw [hoffset, htake]
    exact line_advance _ _
  · rw [hoffset, htake, ha]
  · rw [hoffset, hcolumn, ha, List.length_append, Nat.add_sub_cancel_left]

/-! ## Between the tokens -/

/-- Blanks, remarks that go on to the end of their line, and comments that are closed; `rest` is the
text behind them. -/
inductive Layout (rest : List Char) : List Char → Prop
  | nil : Layout rest []
  | blank {c : Char} {g : List Char} (hc : Text.isBlank c = true) (hg : Layout rest g) :
      Layout rest (c :: g)
  | remark {w g : List Char} (hw : '\n' ∉ w) (hend : ∀ c ∈ (g ++ rest).head?, c = '\n')
      (hg : Layout rest g) : Layout rest ('/' :: '/' :: w ++ g)
  | comment {w g : List Char} (hw : ¬ ['*', '/'] <:+: w ++ ['*']) (hg : Layout rest g) :
      Layout rest ('/' :: '*' :: w ++ ['*', '/'] ++ g)

/-- A piece that is no lexeme is layout, before whatever layout follows it. -/
theorem Layout.of_pieceAt {c : Char} {rest : List Char} {p : Piece} {n : Nat}
    (h : pieceAt c rest = .ok (p, n)) (hp : p.lexeme? = none) {g tail : List Char}
    (hrest : (c :: rest).drop n = g ++ tail) (hg : Layout tail g) :
    Layout tail ((c :: rest).take n ++ g) := by
  cases pieceAt_eq_ok_iff.1 h with
  | blank hc => exact .blank hc hg
  | @remark w rest hw hend =>
    have hcut : '/' :: '/' :: (w ++ rest) = ('/' :: '/' :: w) ++ rest := rfl
    have hlength : w.length + 2 = ('/' :: '/' :: w).length := rfl
    rw [hcut, hlength, List.drop_left] at hrest
    rw [hcut, hlength, List.take_left]
    exact .remark hw (hrest ▸ hend) hg
  | @comment w rest hw =>
    have hcut : '/' :: '*' :: (w ++ '*' :: '/' :: rest) = ('/' :: '*' :: w ++ ['*', '/']) ++ rest :=
      by simp
    have hlength : w.length + 4 = ('/' :: '*' :: w ++ ['*', '/']).length := by simp
    rw [hcut, hlength, List.take_left]
    exact .comment hw hg
  | lexeme => cases hp

/-- Nothing but layout stands between two places of a text. -/
def OnlyLayout (source : List Char) (a b : Nat) : Prop :=
  a ≤ b ∧ Layout (source.drop b) (source.extract a b)

theorem extract_middle (a b c : List Char) :
    (a ++ (b ++ c)).extract a.length (a ++ b).length = b := by
  rw [List.extract_eq_take_drop, List.drop_left, List.length_append, Nat.add_sub_cancel_left,
    List.take_left]

theorem Layout.onlyLayout {a g rest : List Char} (h : Layout rest g) :
    OnlyLayout (a ++ (g ++ rest)) a.length (a ++ g).length := by
  refine ⟨by simp, ?_⟩
  rw [extract_middle, ← List.append_assoc, List.drop_left]
  exact h

/-! ## Lexemes -/

/-- A name or a mark is spelled as it is said, and no lexeme is the end of the text. -/
theorem LexemeAt.spelled {c : Char} {rest : List Char} {l : Lexeme} {n : Nat}
    (h : LexemeAt c rest l n) :
    l ≠ .eof ∧ ∀ v, l = .identifier v ∨ l = .punct v → v.toList = (c :: rest).take n := by
  cases h with
  | text | template | number => simp
  | name =>
    have hname := List.prefix_iff_eq_take.1 (List.takeWhile_prefix isNamePart (l := rest))
    refine ⟨by simp, ?_⟩
    rintro v (hv | hv)
    · cases hv
      rw [String.toList_ofList, List.take_succ_cons, ← hname]
    · cases hv
  | punct _ _ _ hmark =>
    refine ⟨by simp, ?_⟩
    rintro v (hv | hv)
    · cases hv
    · cases hv
      rw [← String.length_toList]
      exact List.prefix_iff_eq_take.1 (punctAt?_cases hmark).1

theorem lexemeAt_of_pieceAt {c : Char} {rest : List Char} {l : Lexeme} {n : Nat}
    (h : pieceAt c rest = .ok (.lexeme l, n)) : LexemeAt c rest l n := by
  cases pieceAt_eq_ok_iff.1 h with
  | lexeme _ _ hl => exact hl

/-! ## All tokens -/

/-- The tokens follow one another in the text `cs` behind the text `before`, and the last of them is
its end. -/
inductive Laid (line : Nat) : List Char → List Char → List Token → Prop
  | last {before g : List Char} {t : Token} (hg : Layout [] g) (lexeme : t.lexeme = .eof)
      (start : t.start = (Cursor.start line).advance (before ++ g))
      (stop : t.stop = (before ++ g).length) : Laid line before g [t]
  | cons {before g w cs : List Char} {t : Token} {ts : List Token} (hg : Layout (w ++ cs) g)
      (hw : w ≠ []) (lexeme : t.lexeme ≠ .eof)
      (spelled : ∀ v, t.lexeme = .identifier v ∨ t.lexeme = .punct v → v.toList = w)
      (start : t.start = (Cursor.start line).advance (before ++ g))
      (stop : t.stop = (before ++ g ++ w).length) (hts : Laid line (before ++ g ++ w) cs ts) :
      Laid line before (g ++ (w ++ cs)) (t :: ts)

section Laid

variable {line : Nat} {before cs : List Char} {ts : List Token}

/-- Layout before the first token. -/
theorem Laid.behind {w : List Char} (h : Laid line (before ++ w) cs ts)
    (hw : ∀ g tail, cs = g ++ tail → Layout tail g → Layout tail (w ++ g)) :
    Laid line before (w ++ cs) ts := by
  cases h with
  | last hg lexeme start stop =>
    rw [List.append_assoc] at start stop
    exact .last (hw _ [] (by simp) hg) lexeme start stop
  | @cons _ g v cs t ts hg hv lexeme spelled start stop hts =>
    rw [List.append_assoc before w g] at start stop hts
    rw [← List.append_assoc w g]
    exact .cons (hw _ _ rfl hg) hv lexeme spelled start stop hts

/-- The tokens of a text are laid in it, whatever stands before the text. -/
theorem laid_ofPieces {here : Cursor} {placed : List Placed} (h : pieces here cs = .ok placed)
    (hhere : here = (Cursor.start line).advance before) (doc : Option String) :
    Laid line before cs (ofPieces (here.advance cs) doc placed) := by
  rw [pieces_eq_ok_iff] at h
  induction h generalizing before doc with
  | nil here =>
    subst hhere
    refine .last .nil rfl (by rw [List.append_nil]; rfl) ?_
    rw [List.append_nil]
    exact offset_advance_start line before
  | @cons here c rest piece n more hat _ ih =>
    subst hhere
    have hpos := (pieceAt_le hat).1
    have hstop := (advance_append (Cursor.start line) before ((c :: rest).take n)).symm
    have hlaid := fun doc => ih hstop doc
    rw [← advance_rest hpos _ c rest, drop_pred hpos c rest] at hlaid
    have hsplit := List.take_append_drop n (c :: rest)
    have hlayout := fun hp doc => (hlaid doc).behind fun g tail => Layout.of_pieceAt hat hp
    rw [hsplit] at hlayout
    generalize Cursor.advance _ ((c :: rest).take n) = stop at hstop ⊢
    cases piece with
    | blank | remark | comment => exact hlayout rfl _
    | lexeme l =>
      obtain ⟨heof, hspelled⟩ := (lexemeAt_of_pieceAt hat).spelled
      have hword : (c :: rest).take n ≠ [] := by simp; omega
      rw [ofPieces, ← hsplit, ← List.nil_append ((c :: rest).take n ++ _)]
      refine .cons .nil hword heof hspelled (by rw [List.append_nil]) ?_ ?_
      · rw [List.append_nil, hstop, offset_advance_start]
      · rw [List.append_nil, List.nil_append, hsplit]
        exact hlaid none

theorem laid_of_tokenizeFrom (h : tokenizeFrom line cs = .ok ts) : Laid line [] cs ts := by
  obtain ⟨placed, hplaced, htokens⟩ := bind_eq_ok.1 h
  cases htokens
  exact laid_ofPieces hplaced rfl none

/-- The last token is the end of the text, and every other one takes some of it. -/
theorem Laid.lexemes (h : Laid line before cs ts) :
    ∃ (words : List Token) (last : Token), ts = words ++ [last] ∧
      (last.lexeme = .eof ∧ last.start.offset = (before ++ cs).length ∧
        last.stop = (before ++ cs).length) ∧
      ∀ t ∈ words, t.lexeme ≠ .eof ∧ t.start.offset < t.stop ∧
        ∀ v, t.lexeme = .identifier v ∨ t.lexeme = .punct v →
          v.toList = (before ++ cs).extract t.start.offset t.stop := by
  induction h with
  | @last before g t hg lexeme start stop =>
    exact ⟨[], t, rfl, ⟨lexeme, start ▸ offset_advance_start _ _, stop⟩, by simp⟩
  | @cons before g w cs t ts hg hw lexeme spelled start stop hts ih =>
    obtain ⟨words, last, rfl, hlast, hwords⟩ := ih
    rw [List.append_assoc, List.append_assoc] at hlast hwords
    have hstart : t.start.offset = (before ++ g).length := start ▸ offset_advance_start _ _
    have hpos := List.length_pos_iff.2 hw
    refine ⟨t :: words, last, rfl, hlast, List.forall_mem_cons.2 ⟨⟨lexeme, ?_, ?_⟩, hwords⟩⟩
    · simp only [hstart, stop, List.length_append]
      omega
    · intro v hv
      rw [spelled v hv, hstart, stop, ← List.append_assoc]
      exact (extract_middle (before ++ g) w cs).symm

/-- Every token is where its place says. -/
theorem Laid.isIn (h : Laid line before cs ts) : ∀ t ∈ ts, t.start.IsIn line (before ++ cs) := by
  induction h with
  | @last before g t hg lexeme start stop =>
    intro u hu
    rw [List.mem_singleton.1 hu, start]
    have hplace := isIn_advance line (before ++ g) []
    rwa [List.append_nil] at hplace
  | @cons before g w cs t ts hg hw lexeme spelled start stop hts ih =>
    rw [List.append_assoc, List.append_assoc] at ih
    refine List.forall_mem_cons.2 ⟨?_, ih⟩
    rw [start, ← List.append_assoc]
    exact isIn_advance line (before ++ g) (w ++ cs)

theorem Laid.first (h : Laid line before cs ts) :
    ∀ t ∈ ts.head?, OnlyLayout (before ++ cs) before.length t.start.offset := by
  cases h with
  | @last _ _ t hg lexeme start stop =>
    rintro _ ⟨⟩
    have honly := hg.onlyLayout (a := before)
    rwa [List.append_nil, ← offset_advance_start line (before ++ cs), ← start] at honly
  | @cons _ g w cs t ts hg hw lexeme spelled start stop hts =>
    rintro _ ⟨⟩
    have honly := hg.onlyLayout (a := before)
    rwa [← offset_advance_start line (before ++ g), ← start] at honly

theorem Laid.next (h : Laid line before cs ts) :
    ∀ t u, [t, u] <:+: ts → OnlyLayout (before ++ cs) t.stop u.start.offset := by
  induction h with
  | last =>
    intro t u htu
    have hlength : 2 ≤ 1 := htu.length_le
    omega
  | @cons before g w cs t ts hg hw lexeme spelled start stop hts ih =>
    have hfirst := hts.first
    rw [List.append_assoc, List.append_assoc, ← stop] at hfirst
    rw [List.append_assoc, List.append_assoc] at ih
    intro t' u htu
    rcases List.infix_cons_iff.1 htu with hhere | hlater
    · obtain ⟨rfl, more, rfl⟩ : t' = t ∧ [u] <+: ts := List.cons_prefix_cons.1 hhere
      exact hfirst u rfl
    · exact ih t' u hlater

end Laid

/-- The tokens stand in a text where they say, and the text has no others. -/
structure PlacedIn (line : Nat) (source : List Char) (tokens : List Token) : Prop where
  /-- The last token is the end of the text and no other one is; every other one takes some of the
  text, and a name or a mark takes what it says. -/
  lexemes : ∃ (words : List Token) (last : Token), tokens = words ++ [last] ∧
    (last.lexeme = .eof ∧ last.start.offset = source.length ∧ last.stop = source.length) ∧
    ∀ t ∈ words, t.lexeme ≠ .eof ∧ t.start.offset < t.stop ∧
      ∀ v, t.lexeme = .identifier v ∨ t.lexeme = .punct v →
        v.toList = source.extract t.start.offset t.stop
  /-- Lines and columns are counted by the line breaks before a token. -/
  isIn : ∀ t ∈ tokens, t.start.IsIn line source
  /-- Nothing but layout stands before the first token, -/
  first : ∀ t ∈ tokens.head?, OnlyLayout source 0 t.start.offset
  /-- and between two tokens. -/
  next : ∀ t u, [t, u] <:+: tokens → OnlyLayout source t.stop u.start.offset

theorem tokenizeFrom_placed {line : Nat} {source : List Char} {tokens : List Token}
    (h : tokenizeFrom line source = .ok tokens) : PlacedIn line source tokens := by
  have hlaid := laid_of_tokenizeFrom h
  exact ⟨hlaid.lexemes, hlaid.isIn, hlaid.first, hlaid.next⟩

/-- A comment and a template over two lines each, and an escaped line break in a text. -/
def winding : List Char := r"/** a
*/ x // b
 ?.y`${'}'
}`'c\
d' ".toList

/-- Where its tokens start and stop. -/
def windingPlaces : List (Cursor × Nat) :=
  [(⟨9, 8, 4⟩, 10), (⟨17, 9, 2⟩, 19), (⟨19, 9, 4⟩, 20), (⟨20, 9, 5⟩, 29), (⟨29, 10, 3⟩, 35),
    (⟨36, 11, 4⟩, 36)]

theorem tokenizeFrom_placed_winding :
    ∃ tokens, tokenizeFrom 7 winding = .ok tokens ∧
      tokens.map (fun t => (t.start, t.stop)) = windingPlaces ∧ PlacedIn 7 winding tokens := by
  have h : (tokenizeFrom 7 winding).toOption.map (List.map fun t => (t.start, t.stop)) =
      some windingPlaces := by
    decide +kernel
  obtain ⟨tokens, htokens, h⟩ := Option.map_eq_some_iff.1 h
  have hok := toOption_eq_some htokens
  exact ⟨tokens, hok, h, tokenizeFrom_placed hok⟩

end Token

end EventFlow
