import EventFlow.Proofs.Text.Blank
import EventFlow.Proofs.Token.Spelling

/-! The tokens of code with doc comments in it.

`Cuts here cs before ts after` says that a text at a place is cut into the tokens `ts`, where
`before` is the comment that stands before the text and `after` the one that is left for what
follows. Texts are put together at tight seams:

    Cuts here a x ts y → Cuts (here.advance a) b y us z → Cuts here (a ++ b) x (ts ++ us) z

A comment goes to the first lexeme after it and to no other. -/

namespace EventFlow.Token

variable {cs : List Char} {placed : List Placed} {ls : List Lexeme} {raw : String}

/-- What a reader sees of a token apart from its place. -/
def view (t : Token) : Option String × Lexeme := (t.doc, t.lexeme)

/-- The tokens of some pieces without the end of the text, and the comment that is left over. -/
def tokensOf (doc : Option String) : List Placed → List Token × Option String
  | [] => ([], doc)
  | p :: rest =>
    match p.piece with
    | .lexeme lexeme =>
      (⟨lexeme, p.start, p.stop.offset, doc⟩ :: (tokensOf none rest).1, (tokensOf none rest).2)
    | .comment raw => tokensOf (if isDoc raw then some raw else doc) rest
    | .blank | .remark => tokensOf doc rest

theorem ofPieces_eq (stop : Cursor) (doc : Option String) (placed : List Placed) :
    ofPieces stop doc placed =
      (tokensOf doc placed).1 ++ [⟨.eof, stop, stop.offset, (tokensOf doc placed).2⟩] := by
  fun_induction tokensOf doc placed with
  | case1 => rfl
  | case2 doc p rest lexeme hp ih => simp [ofPieces, hp, ih]
  | case3 doc p rest raw hp ih => simpa [ofPieces, hp] using ih
  | case4 doc p rest hp ih => simpa [ofPieces, hp] using ih
  | case5 doc p rest hp ih => simpa [ofPieces, hp] using ih

theorem tokensOf_append (doc : Option String) (a b : List Placed) :
    tokensOf doc (a ++ b) = ((tokensOf doc a).1 ++ (tokensOf (tokensOf doc a).2 b).1,
      (tokensOf (tokensOf doc a).2 b).2) := by
  fun_induction tokensOf doc a with
  | case1 => rfl
  | case2 doc p rest lexeme hp ih => simp [tokensOf, hp, ih]
  | case3 doc p rest raw hp ih => simpa [tokensOf, hp] using ih
  | case4 doc p rest hp ih => simpa [tokensOf, hp] using ih
  | case5 doc p rest hp ih => simpa [tokensOf, hp] using ih

theorem ofPieces_cons (stop : Cursor) (doc : Option String) (p : Placed) (rest : List Placed) :
    ofPieces stop doc (p :: rest) =
      (tokensOf doc [p]).1 ++ ofPieces stop (tokensOf doc [p]).2 rest := by
  rw [ofPieces]
  cases hp : p.piece <;> simp [tokensOf, hp]

theorem start_of_mem_tokensOf {doc : Option String} {p : Placed} {t : Token}
    (h : t ∈ (tokensOf doc [p]).1) : t.start = p.start := by
  cases hp : p.piece with
  | lexeme l =>
    obtain rfl : t = ⟨l, p.start, p.stop.offset, doc⟩ := by simpa [tokensOf, hp] using h
    rfl
  | comment | blank | remark => simp [tokensOf, hp] at h

/-- The text is cut into the given tokens at that place. -/
def Cuts (here : Cursor) (cs : List Char) (before : Option String) (ts : List Token)
    (after : Option String) : Prop :=
  ∃ placed, pieces here cs = .ok placed ∧ (∀ p ∈ placed, p.piece.isPlain = true) ∧
    tokensOf before placed = (ts, after)

theorem Cuts.nil (here : Cursor) (doc : Option String) : Cuts here [] doc [] doc :=
  ⟨[], pieces_nil _, by simp, rfl⟩

theorem Cuts.append {here : Cursor} {a b : List Char} {x y z : Option String}
    {ts us : List Token} (ha : Cuts here a x ts y) (hb : Cuts (here.advance a) b y us z)
    (htight : a = [] ∨ Tight a b) : Cuts here (a ++ b) x (ts ++ us) z := by
  obtain ⟨pa, hpa, hplain, hta⟩ := ha
  obtain ⟨pb, hpb, hplain', htb⟩ := hb
  refine ⟨pa ++ pb, pieces_append here a b pa pb hplain htight hpa hpb, ?_, ?_⟩
  · intro p hp
    rcases List.mem_append.1 hp with hp | hp
    · exact hplain p hp
    · exact hplain' p hp
  · rw [tokensOf_append, hta, htb]

/-- All tokens of a text. -/
theorem Cuts.tokenizeFrom {line : Nat} {ts : List Token} {after : Option String}
    (h : Cuts (.start line) cs none ts after) :
    ∃ t, tokenizeFrom line cs = .ok (ts ++ [t]) ∧ t.lexeme = .eof := by
  obtain ⟨placed, hplaced, -, htokens⟩ := h
  let stop := (Cursor.start line).advance cs
  refine ⟨⟨.eof, stop, stop.offset, after⟩, ?_, rfl⟩
  rw [Token.tokenizeFrom, hplaced]
  show Except.ok (ofPieces _ none placed) = _
  rw [ofPieces_eq, htokens]

/-! ## Code -/

/-- Lexemes with a comment before the first of them. -/
def viewed (doc : Option String) : List Lexeme → List (Option String × Lexeme)
  | [] => []
  | l :: ls => (doc, l) :: ls.map (none, ·)

theorem viewed_none (ls : List Lexeme) : viewed none ls = ls.map (none, ·) := by
  cases ls <;> rfl

theorem tokensOf_code (h : codeOf (placed.map (·.piece)) = some ls) (doc : Option String) :
    (tokensOf doc placed).1.map view = viewed doc ls ∧
      (tokensOf doc placed).2 = (if ls = [] then doc else none) := by
  induction placed generalizing ls doc with
  | nil =>
    cases h
    exact ⟨rfl, rfl⟩
  | cons p rest ih =>
    obtain ⟨piece, start, stop⟩ := p
    rw [List.map_cons] at h
    cases piece with
    | blank => exact ih h doc
    | remark => cases h
    | comment raw => cases h
    | lexeme l =>
      rw [codeOf] at h
      split at h
      · obtain ⟨more, hmore, rfl⟩ := Option.map_eq_some_iff.1 h
        obtain ⟨hviews, hafter⟩ := ih hmore none
        refine ⟨?_, by simpa [tokensOf] using hafter⟩
        simp only [tokensOf, List.map_cons, hviews, viewed_none]
        rfl
      · cases h

theorem Code.cuts (h : Code cs ls) (here : Cursor) (doc : Option String) :
    ∃ ts, Cuts here cs doc ts (if ls = [] then doc else none) ∧ ts.map view = viewed doc ls := by
  obtain ⟨placed, hplaced, hcode⟩ := h here
  obtain ⟨hviews, hafter⟩ := tokensOf_code hcode doc
  refine ⟨_, ⟨placed, hplaced, fun p hp => isPlain_of_codeOf hcode _ (List.mem_map_of_mem hp), ?_⟩,
    hviews⟩
  rw [← hafter]

/-! ## Comments -/

/-- A comment ends where the end of a comment first stands in it. -/
def EndsOnce (raw : String) : Prop := ¬ ['*', '/'] <:+: (raw.toList.drop 2).dropLast

theorem endsOnce_of_pieceAt {c : Char} {rest : List Char} {n : Nat}
    (h : pieceAt c rest = .ok (.comment raw, n)) : EndsOnce raw := by
  cases pieceAt_eq_ok_iff.1 h with
  | @comment w rest hw =>
    have hclose : w ++ ['*', '/'] = (w ++ ['*']) ++ ['/'] := by simp
    rwa [EndsOnce, String.toList_ofList, List.drop_succ_cons, List.drop_succ_cons, List.drop_zero,
      hclose, List.dropLast_concat]

theorem endsOnce_of_mem_pieces {here : Cursor} (h : pieces here cs = .ok placed) {p : Placed}
    (hp : p ∈ placed) (hraw : p.piece = .comment raw) : EndsOnce raw := by
  rw [pieces_eq_ok_iff] at h
  induction h with
  | nil => cases hp
  | cons hpiece _ ih =>
    rcases List.mem_cons.1 hp with rfl | hp
    · cases hraw
      exact endsOnce_of_pieceAt hpiece
    · exact ih hp

theorem endsOnce_of_mem_ofPieces {stop : Cursor} {doc : Option String}
    (hdoc : ∀ raw ∈ doc, EndsOnce raw)
    (h : ∀ p ∈ placed, ∀ raw, p.piece = .comment raw → EndsOnce raw) {t : Token}
    (ht : t ∈ ofPieces stop doc placed) (hraw : t.doc = some raw) : EndsOnce raw := by
  induction placed generalizing doc with
  | nil =>
    obtain rfl := List.mem_singleton.1 ht
    exact hdoc raw hraw
  | cons p rest ih =>
    have hrest : ∀ q ∈ rest, ∀ raw, q.piece = .comment raw → EndsOnce raw := fun q hq =>
      h q (List.mem_cons_of_mem _ hq)
    rw [ofPieces] at ht
    split at ht
    · rcases List.mem_cons.1 ht with rfl | ht
      · exact hdoc raw hraw
      · exact ih (by simp) hrest ht
    · next comment hcomment =>
      refine ih (fun r hr => ?_) hrest ht
      split at hr
      · cases hr
        exact h p List.mem_cons_self comment hcomment
      · exact hdoc r hr
    · exact ih hdoc hrest ht
    · exact ih hdoc hrest ht

/-- The comment that a token bears ends once. -/
theorem endsOnce_doc {line : Nat} {ts : List Token} (h : tokenizeFrom line cs = .ok ts) {t : Token}
    (ht : t ∈ ts) (hraw : t.doc = some raw) : EndsOnce raw := by
  obtain ⟨placed, hplaced, h⟩ := bind_eq_ok.1 h
  cases h
  exact endsOnce_of_mem_ofPieces (by simp) (fun p hp raw => endsOnce_of_mem_pieces hplaced hp) ht
    hraw

/-- A doc comment is kept for what follows it. -/
theorem Cuts.comment {body : List Char}
    (hraw : raw.toList = '/' :: '*' :: '*' :: (body ++ ['*', '/']))
    (h : ¬ ['*', '/'] <:+: '*' :: body ++ ['*']) (here : Cursor) (doc : Option String) :
    Cuts here raw.toList doc [] (some raw) := by
  have hat : pieceAt '/' ('*' :: '*' :: (body ++ ['*', '/'])) =
      .ok (.comment raw, body.length + 5) := by
    have hpiece := pieceAt_eq_ok_iff.2 (.comment (t := []) h)
    rw [List.cons_append, ← hraw, String.ofList_toList] at hpiece
    exact hpiece
  have hdrop : ('*' :: '*' :: (body ++ ['*', '/'])).drop (body.length + 5 - 1) = [] :=
    List.drop_eq_nil_of_le (by simp)
  have hisDoc : isDoc raw = true := by
    have hstart : Text.startsWith "/**" raw.toList = true :=
      Text.startsWith_iff.2 ⟨body ++ ['*', '/'], hraw.symm⟩
    have hlong : raw ≠ "/**/" := by
      rintro rfl
      have hlen := congrArg List.length hraw
      simp at hlen
    simp [isDoc, hstart, hlong]
  rw [hraw]
  refine ⟨_, pieces_cons hat (hdrop ▸ pieces_nil _), by simp [Piece.isPlain], ?_⟩
  simp only [tokensOf, hisDoc, if_true]

/-! ## Places -/

theorem offset_advance (here : Cursor) (cs : List Char) :
    (here.advance cs).offset = here.offset + cs.length := by
  induction cs generalizing here with
  | nil => rfl
  | cons c cs ih =>
    have hstep : (here.step c).offset = here.offset + 1 := by
      unfold Cursor.step
      split <;> rfl
    show ((here.step c).advance cs).offset = _
    rw [ih, hstep, List.length_cons]
    omega

theorem line_advance (here : Cursor) (cs : List Char) :
    (here.advance cs).line = here.line + cs.count '\n' := by
  induction cs generalizing here with
  | nil => rfl
  | cons c cs ih =>
    show ((here.step c).advance cs).line = _
    rw [ih, List.count_cons]
    unfold Cursor.step
    split
    next hc =>
      simp only [hc, BEq.rfl, if_true]
      omega
    next hc => simp [hc]

/-- The first piece begins where the text does, and the last ends where it does. -/
theorem pieces_ends {here : Cursor} (h : pieces here cs = .ok placed)
    (hplain : ∀ p ∈ placed, p.piece.isPlain = true) (hne : cs ≠ []) :
    (∃ p more, placed = p :: more ∧ p.start = here ∧
      (p.piece = .blank → ∃ c ∈ cs.head?, Text.isBlank c = true)) ∧
    ∃ init p, placed = init ++ [p] ∧ p.stop = here.advance cs ∧
      (p.piece = .blank → ∃ c ∈ cs.getLast?, Text.isBlank c = true) := by
  rw [pieces_eq_ok_iff] at h
  induction h with
  | nil => exact absurd rfl hne
  | @cons here c rest piece n more hpiece hmore ih =>
    have hdrop := drop_pred (pieceAt_le hpiece).1 c rest
    refine ⟨⟨_, _, rfl, rfl, ?_⟩, ?_⟩
    · rintro rfl
      exact ⟨c, rfl, (pieceAt_blank hpiece).1⟩
    · by_cases hnil : rest.drop (n - 1) = []
      · rw [hnil] at hmore
        cases hmore
        have htake : (c :: rest).take n = c :: rest := by
          rw [hdrop, List.drop_eq_nil_iff] at hnil
          exact List.take_of_length_le hnil
        refine ⟨[], _, rfl, congrArg _ htake, ?_⟩
        rintro rfl
        obtain ⟨hblank, rfl⟩ := pieceAt_blank hpiece
        obtain rfl : rest = [] := hnil
        exact ⟨c, rfl, hblank⟩
      · obtain ⟨-, init, p, rfl, hstop, hlast⟩ := ih
          (fun q hq => hplain q (List.mem_cons_of_mem _ hq)) hnil
        refine ⟨_ :: init, p, rfl, ?_, ?_⟩
        · rw [hstop, hdrop, ← advance_append, List.take_append_drop]
        · intro hp
          obtain ⟨d, hd, hblank⟩ := hlast hp
          refine ⟨d, ?_, hblank⟩
          rw [hdrop, Option.mem_def, List.getLast?_drop] at hd
          split at hd
          · cases hd
          · exact hd

theorem mem_codeOf {ps : List Piece} (h : codeOf ps = some ls) :
    ∀ p ∈ ps, p ≠ .blank → ∃ l, p = .lexeme l := by
  fun_induction codeOf ps generalizing ls with
  | case1 => simp
  | case2 ps ih => simpa using ih h
  | case3 l ps hplain ih =>
    obtain ⟨more, hmore, rfl⟩ := Option.map_eq_some_iff.1 h
    simpa using ih hmore
  | case4 => cases h
  | case5 => cases h

/-- The tokens of a trimmed text take it up from its first character to its last. -/
theorem Code.cuts_trimmed (h : Code cs ls) (hne : cs ≠ []) (hstart : Text.IsTrimmedStart cs)
    (hend : Text.IsTrimmedEnd cs) (here : Cursor) (doc : Option String) :
    ∃ ts first last, Cuts here cs doc ts none ∧ ts.map view = viewed doc ls ∧
      ts.head? = some first ∧ ts.getLast? = some last ∧ first.start.offset = here.offset ∧
      last.stop = here.offset + cs.length := by
  obtain ⟨placed, hplaced, hcode⟩ := h here
  have hplain : ∀ p ∈ placed, p.piece.isPlain = true := fun p hp =>
    isPlain_of_codeOf hcode _ (List.mem_map_of_mem hp)
  obtain ⟨hviews, hafter⟩ := tokensOf_code hcode doc
  obtain ⟨⟨p, more, hp, hpstart, hpblank⟩, init, q, hq, hqstop, hqblank⟩ :=
    pieces_ends hplaced hplain hne
  have hlexeme : ∀ r ∈ placed, r.piece ≠ .blank → ∃ l, r.piece = .lexeme l := fun r hr =>
    mem_codeOf hcode r.piece (List.mem_map_of_mem hr)
  obtain ⟨l, hl⟩ : ∃ l, p.piece = .lexeme l := by
    refine hlexeme p (hp ▸ List.mem_cons_self) fun hblank => ?_
    obtain ⟨c, hc, hcblank⟩ := hpblank hblank
    rw [hstart c hc] at hcblank
    cases hcblank
  obtain ⟨l', hl'⟩ : ∃ l, q.piece = .lexeme l := by
    refine hlexeme q (hq ▸ by simp) fun hblank => ?_
    obtain ⟨c, hc, hcblank⟩ := hqblank hblank
    rw [hend c hc] at hcblank
    cases hcblank
  have hfirst : (tokensOf doc placed).1.head? = some ⟨l, p.start, p.stop.offset, doc⟩ := by
    rw [hp]
    simp [tokensOf, hl]
  have hlast : (tokensOf doc placed).1.getLast? =
      some ⟨l', q.start, q.stop.offset, (tokensOf doc init).2⟩ := by
    rw [hq, tokensOf_append]
    simp [tokensOf, hl']
  have hls : ls ≠ [] := by
    rintro rfl
    have : (tokensOf doc placed).1 = [] := by simpa [viewed] using hviews
    rw [this] at hfirst
    cases hfirst
  refine ⟨_, _, _, ⟨placed, hplaced, hplain, ?_⟩, hviews, hfirst, hlast, by rw [hpstart], ?_⟩
  · rw [if_neg hls] at hafter
    rw [← hafter]
  · rw [hqstop, offset_advance]

end EventFlow.Token
