import EventFlow.Proofs.Token.Pieces

/-! Source text cut at the start of a line.

A line break ends every lexeme and every remark, so only a comment or a literal can go on over it.
Where none does, the lines before it and the lines from it on are cut into pieces apart:

    pieces here (a ++ b) = pieces here a ++ pieces (here.advance a) b

This holds in both directions for a text `a` that ends with a line break. -/

namespace EventFlow.Token

variable {c : Char} {r : List Char} {p : Piece}

/-! ## Lines -/

/-- The text is empty or ends with a line break. -/
def EndsLine (cs : List Char) : Prop := ∀ c ∈ cs.getLast?, c = '\n'

theorem EndsLine.drop {cs : List Char} (h : EndsLine cs) (n : Nat) : EndsLine (cs.drop n) := by
  intro c hc
  rw [List.getLast?_drop] at hc
  split at hc
  · cases hc
  · exact h c hc

theorem EndsLine.tight (h : EndsLine (c :: r)) (b : List Char) :
    Tight (c :: r) b := by
  right
  obtain ⟨d, hd⟩ : ∃ d, (c :: r).getLast? = some d := ⟨_, List.getLast?_eq_some_getLast (by simp)⟩
  refine ⟨d, hd, ?_⟩
  rw [h d hd]
  decide

/-- A remark on one of the lines ends with it. -/
theorem EndsLine.exists_break {w rest : List Char} (h : EndsLine (c :: (w ++ rest))) (hc : c ≠ '\n')
    (hw : '\n' ∉ w) : rest ≠ [] := by
  rintro rfl
  rw [List.append_nil] at h
  obtain ⟨d, hd⟩ : ∃ d, (c :: w).getLast? = some d := ⟨_, List.getLast?_eq_some_getLast (by simp)⟩
  obtain rfl := h d hd
  exact hw ((List.mem_cons.1 (List.mem_of_getLast? hd)).resolve_left hc.symm)

theorem pieceAt_append_of_endsLine {n : Nat} (hline : EndsLine (c :: r))
    (h : pieceAt c r = .ok (p, n)) (b : List Char) :
    pieceAt c (r ++ b) = .ok (p, n) := by
  by_cases hremark : p = .remark
  · subst hremark
    cases pieceAt_eq_ok_iff.1 h with
    | @remark w rest hw hrest =>
      have hne := hline.exists_break (w := '/' :: w) (by decide) (by simpa using hw)
      rw [pieceAt_eq_ok_iff, List.cons_append, List.append_assoc]
      refine .remark hw ?_
      rwa [List.head?_append_of_ne_nil _ hne]
  · exact (pieceAt_append c r b p n hremark (hline.tight b) h).1

theorem pieceAt_of_append {b : List Char} {n : Nat} (hline : EndsLine (c :: r))
    (h : pieceAt c (r ++ b) = .ok (p, n)) (hn : n ≤ r.length + 1) :
    pieceAt c r = .ok (p, n) := by
  rw [pieceAt_eq_ok_iff] at h ⊢
  have htight := hline.tight b
  have hopens := opensRemark_append htight
  generalize hrest : r ++ b = rest at h hopens
  cases h with
  | blank hc => exact .blank hc
  | @remark w rest hw hnext =>
    obtain ⟨t, rfl, rfl⟩ := exists_front (w := '/' :: w) hrest (by rw [List.length_cons]; omega)
    have hne := hline.exists_break (by decide) (by simpa using hw)
    exact .remark hw (by rwa [List.head?_append_of_ne_nil _ hne] at hnext)
  | @comment w rest hw =>
    obtain ⟨t, rfl, -⟩ := exists_front (w := '*' :: (w ++ ['*', '/'])) (t := rest)
      (by simpa using hrest) (by simp; omega)
    rw [List.cons_append, List.append_assoc]
    exact .comment hw
  | lexeme hc hopen hl =>
    subst hrest
    exact .lexeme hc (hopens.symm.trans hopen) (hl.of_append htight hn)

/-- Lines are cut into pieces before any text as they are alone. -/
theorem pieces_append_of_endsLine (here : Cursor) (a b : List Char) (pa pb : List Placed)
    (hline : EndsLine a) (ha : pieces here a = .ok pa) (hb : pieces (here.advance a) b = .ok pb) :
    pieces here (a ++ b) = .ok (pa ++ pb) := by
  rw [pieces_eq_ok_iff] at ha
  induction ha with
  | nil => exact hb
  | @cons here c rest piece n more hpiece _ ih =>
    obtain ⟨hpos, hle⟩ := pieceAt_le hpiece
    have hnext := ih (drop_pred hpos c rest ▸ hline.drop n) (advance_rest hpos here c rest ▸ hb)
    exact pieces_cons_extend (pieceAt_append_of_endsLine hline hpiece b) hle hnext

/-- Where no piece runs on from one line into the next, the lines before and the lines after are cut
into pieces apart. -/
theorem pieces_of_append {here : Cursor} {a b : List Char} {ps : List Placed}
    (hline : EndsLine a) (h : pieces here (a ++ b) = .ok ps)
    (hover : ∀ x ∈ ps, x.start.offset < here.offset + a.length →
      x.stop.offset ≤ here.offset + a.length) :
    ∃ pa pb, ps = pa ++ pb ∧ pieces here a = .ok pa ∧ pieces (here.advance a) b = .ok pb := by
  induction hlen : a.length using Nat.strongRecOn generalizing here a ps with
  | ind len ih =>
  cases a with
  | nil => exact ⟨[], ps, rfl, pieces_nil _, h⟩
  | cons c r =>
    rw [List.cons_append] at h
    obtain ⟨p, n, more, hpiece, hmore, rfl⟩ := pieces_cons_inv h
    obtain ⟨hpos, hle⟩ := pieceAt_le hpiece
    have hoffset : (here.advance ((c :: (r ++ b)).take n)).offset = here.offset + n := by
      rw [offset_advance, List.length_take_of_le (by simpa using hle)]
    have hn : n ≤ r.length + 1 := by
      have hfirst := hover _ List.mem_cons_self (by dsimp only; rw [List.length_cons]; omega)
      dsimp only at hfirst
      rw [hoffset, List.length_cons] at hfirst
      omega
    have hdrop : (r ++ b).drop (n - 1) = (c :: r).drop n ++ b := by
      obtain ⟨k, rfl⟩ := Nat.exists_eq_succ_of_ne_zero (Nat.pos_iff_ne_zero.1 hpos)
      exact List.drop_append_of_le_length (by omega)
    have htake : (c :: (r ++ b)).take n = (c :: r).take n := by
      rw [← List.cons_append, List.take_append_of_le_length (by simpa using hn)]
    rw [htake] at hmore hoffset hover
    rw [hdrop] at hmore
    have hrest : here.offset + n + ((c :: r).drop n).length = here.offset + (c :: r).length := by
      rw [List.length_drop, List.length_cons]
      omega
    obtain ⟨pa, pb, rfl, hpa, hpb⟩ := ih ((c :: r).drop n).length (by
        rw [← hlen, List.length_drop, List.length_cons]
        omega)
      (hline.drop n) hmore (fun x hx => by
        rw [hoffset, hrest]
        exact hover x (List.mem_cons_of_mem _ hx)) rfl
    refine ⟨⟨p, here, here.advance ((c :: r).take n)⟩ :: pa, pb, by rw [htake]; rfl, ?_, ?_⟩
    · refine pieces_cons (pieceAt_of_append hline hpiece hn) ?_
      rw [show r.drop (n - 1) = (c :: r).drop n by
        obtain ⟨k, rfl⟩ := Nat.exists_eq_succ_of_ne_zero (Nat.pos_iff_ne_zero.1 hpos)
        rfl]
      exact hpa
    · rwa [← advance_append, List.take_append_drop] at hpb

/-! ## Gaps -/

theorem lexemesOf_append (a b : List Placed) : lexemesOf (a ++ b) = lexemesOf a ++ lexemesOf b :=
  List.filterMap_append

/-- A text says the same wherever it stands. -/
theorem exists_pieces_at {here : Cursor} {cs : List Char} {placed : List Placed}
    (h : pieces here cs = .ok placed) (there : Cursor) :
    ∃ moved, pieces there cs = .ok moved ∧ lexemesOf moved = lexemesOf placed := by
  obtain ⟨moved, hmoved, halike⟩ := pieces_alike h there
  refine ⟨moved, hmoved, ?_⟩
  have hsame := congrArg (List.filterMap Piece.lexeme?) (map_piece_of_alike halike)
  rwa [List.filterMap_map, List.filterMap_map] at hsame

/-- A text without lexemes, before any other text. -/
def Gap (g : List Char) : Prop :=
  ∀ here rest, ∃ gaps, lexemesOf gaps = [] ∧
    pieces here (g ++ rest) = (pieces (here.advance g) rest).map (gaps ++ ·)

theorem Gap.nil : Gap [] := by
  intro here rest
  refine ⟨[], rfl, ?_⟩
  show pieces here rest = (pieces here rest).map _
  cases pieces here rest <;> rfl

theorem Gap.append {g g' : List Char} (h : Gap g) (h' : Gap g') : Gap (g ++ g') := by
  intro here rest
  obtain ⟨gaps, hgaps, hg⟩ := h here (g' ++ rest)
  obtain ⟨gaps', hgaps', hg'⟩ := h' (here.advance g) rest
  refine ⟨gaps ++ gaps', by rw [lexemesOf_append, hgaps, hgaps']; rfl, ?_⟩
  rw [List.append_assoc, hg, hg', ← advance_append]
  cases pieces (here.advance (g ++ g')) rest with
  | error e => rfl
  | ok more => simp [Except.map]

theorem Gap.lexemes? {s : String} (h : Gap s.toList) : lexemes? s = some [.eof] := by
  obtain ⟨gaps, hgaps, hpieces⟩ := h (.start 1) []
  rw [List.append_nil, pieces_nil] at hpieces
  have hself : pieces (.start 1) s.toList = .ok (gaps ++ []) := hpieces
  rw [lexemes?_eq hself, List.append_nil, hgaps]
  rfl

theorem Gap.of_piece {w : List Char} (hp : p.lexeme? = none)
    (h : ∀ rest, pieceAt c (w ++ rest) = .ok (p, w.length + 1)) : Gap (c :: w) := by
  intro here rest
  refine ⟨[⟨p, here, here.advance (c :: w)⟩], ?_, pieces_eq_map (h rest)⟩
  rw [lexemesOf, List.filterMap_cons, hp]
  rfl

theorem Gap.blanks {g : List Char} (h : g.all Text.isBlank = true) : Gap g := by
  induction g with
  | nil => exact Gap.nil
  | cons c g ih =>
    rw [List.all_cons, Bool.and_eq_true] at h
    have hone : Gap [c] := Gap.of_piece (p := .blank) rfl fun rest => by
      rw [pieceAt, if_pos h.1]
      rfl
    exact hone.append (ih h.2)

/-- A comment that ends where its closing mark first stands. -/
theorem Gap.comment {body : List Char} (h : ¬ ['*', '/'] <:+: body ++ ['*']) :
    Gap ('/' :: '*' :: (body ++ ['*', '/'])) := by
  refine Gap.of_piece (p := .comment (String.ofList ('/' :: '*' :: (body ++ ['*', '/'])))) rfl ?_
  intro rest
  simpa using pieceAt_eq_ok_iff.2 (.comment (t := rest) h)

end EventFlow.Token
