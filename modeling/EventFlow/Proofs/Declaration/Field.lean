import EventFlow.Proofs.Declaration.Behind
import EventFlow.Proofs.Declaration.Scan
import EventFlow.Proofs.Text.Squeeze
import EventFlow.Proofs.Token.Documented

/-! Fields and their types.

The type of a field is any code whose brackets are nested, with no semicolon and no comma outside
of them. It ends where the semicolon after it stands, and its text is what was written:

    typeTokens 0 (ts ++ semicolon :: rest) = ok (ts, semicolon :: rest)
    typeText source ts = t        if t stands in the source where its tokens do -/

namespace EventFlow

namespace Declaration

open Token LineState

variable {mark t : String} {ts : Tokens}

/-! ## Nested brackets -/

/-- The bracket that closes the given one. -/
def closer? (mark : String) : Option String :=
  [(r"{", r"}"), ("[", "]"), ("(", ")"), ("<", ">")].lookup mark

/-- Whether brackets are nested, where those of `open` are still to be closed, and no semicolon or
comma stands outside of them. -/
def nests : (unclosed : List String) → List Lexeme → Bool
  | unclosed, [] => unclosed.isEmpty
  | unclosed, .punct mark :: ls =>
    match closer? mark, unclosed with
    | some closing, _ => nests (closing :: unclosed) ls
    | none, closing :: outer =>
      if isClosing mark then mark = closing && nests outer ls else nests unclosed ls
    | none, [] => !isClosing mark && !([";", ","].contains mark) && nests [] ls
  | _, .eof :: _ => false
  | unclosed, _ :: ls => nests unclosed ls

theorem closer?_eq_some {closing : String} (h : closer? mark = some closing) :
    (mark = r"{" ∧ closing = r"}") ∨ (mark = "[" ∧ closing = "]") ∨
      (mark = "(" ∧ closing = ")") ∨ (mark = "<" ∧ closing = ">") := by
  obtain ⟨before, after, heq, -⟩ := List.lookup_eq_some_iff.1 h
  have hmem : (mark, closing) ∈
      [(r"{", r"}"), ("[", "]"), ("(", ")"), ("<", ">")] := by
    rw [heq]
    simp
  simpa using hmem

theorem closer?_eq_none (h : closer? mark = none) : mark ∉ [r"{", "[", "(", "<"] := by
  intro hmem
  simp only [List.mem_cons, List.not_mem_nil, or_false] at hmem
  rcases hmem with rfl | rfl | rfl | rfl <;> exact absurd h (by decide)

theorem isOpening_eq_false (h : closer? mark = none) : isOpening mark = false := by
  simpa [isOpening] using closer?_eq_none h

/-- A mark that is no bracket opens and closes nothing. -/
theorem steps_of_none (h : closer? mark = none) (hclosing : isClosing mark = false) :
    braceStep (.punct mark) = 0 ∧ angleStep (.punct mark) = 0 := by
  have hopen := closer?_eq_none h
  simp only [isClosing, List.contains_eq_mem, List.mem_cons, List.not_mem_nil, or_false, not_or,
    decide_eq_false_iff_not] at hopen hclosing
  simp [braceStep, angleStep, hopen, hclosing]

theorem steps_of_other {l : Lexeme} (h : ∀ mark, l ≠ .punct mark) :
    braceStep l = 0 ∧ angleStep l = 0 := by
  simp [braceStep, angleStep, h]

theorem steps_of_some {closing : String} (h : closer? mark = some closing) :
    braceStep (.punct mark) + braceStep (.punct closing) = 0 ∧
      angleStep (.punct mark) + angleStep (.punct closing) = 0 := by
  rcases closer?_eq_some h with ⟨rfl, rfl⟩ | ⟨rfl, rfl⟩ | ⟨rfl, rfl⟩ | ⟨rfl, rfl⟩ <;> decide

/-- Nested brackets close as many braces and angle brackets as are open. -/
theorem net_of_nests {unclosed : List String} {ls : List Lexeme} (h : nests unclosed ls = true) :
    netBraces ls = (unclosed.map fun mark => braceStep (.punct mark)).sum ∧
      netAngles ls = (unclosed.map fun mark => angleStep (.punct mark)).sum := by
  fun_induction nests unclosed ls with
  | case1 unclosed =>
    obtain rfl := List.isEmpty_iff.1 h
    exact ⟨rfl, rfl⟩
  | case2 unclosed mark ls closing hcloser ih =>
    have hnet := ih h
    have hsteps := steps_of_some hcloser
    simp only [netBraces, netAngles, List.map_cons, List.sum_cons] at hnet ⊢
    omega
  | case3 mark ls closing outer hcloser hclosing ih =>
    rw [Bool.and_eq_true, decide_eq_true_eq] at h
    obtain ⟨rfl, h⟩ := h
    have hnet := ih h
    simp only [netBraces, netAngles, List.map_cons, List.sum_cons] at hnet ⊢
    omega
  | case4 mark ls closing outer hcloser hclosing ih =>
    have hnet := ih h
    have hsteps := steps_of_none hcloser (by simpa using hclosing)
    simp only [netBraces, netAngles, List.map_cons, List.sum_cons] at hnet ⊢
    omega
  | case5 mark ls hcloser ih =>
    simp only [Bool.and_eq_true, Bool.not_eq_true'] at h
    have hnet := ih h.2
    have hsteps := steps_of_none hcloser h.1.1
    simp only [netBraces, netAngles, List.map_cons, List.sum_cons] at hnet ⊢
    omega
  | case6 => cases h
  | case7 unclosed l ls hpunct heof ih =>
    have hnet := ih h
    have hsteps := steps_of_other fun mark => hpunct mark
    simp only [netBraces, netAngles, List.map_cons, List.sum_cons] at hnet ⊢
    omega

/-! ## The end of a type -/

theorem typeTokens_mark {depth : Int} {t : Token} (ht : t.lexeme = .punct mark)
    (hstop : depth = 0 → mark ∉ [";", ",", r"}"]) {r : Tokens × Tokens}
    (h : typeTokens (if isOpening mark then depth + 1
      else if isClosing mark then depth - 1 else depth) ts = .ok r) :
    typeTokens depth (t :: ts) = .ok (t :: r.1, r.2) := by
  have hno : ¬ (decide (depth = 0) && [";", ",", r"}"].contains mark) = true := by
    rw [Bool.and_eq_true, decide_eq_true_eq, List.contains_iff_mem]
    exact fun hboth => hstop hboth.1 hboth.2
  rw [typeTokens]
  simp only [ht]
  rw [if_neg hno, h]
  rfl

theorem typeTokens_other {depth : Int} {t : Token} (hpunct : ∀ mark, t.lexeme ≠ .punct mark)
    (heof : t.lexeme ≠ .eof) {r : Tokens × Tokens} (h : typeTokens depth ts = .ok r) :
    typeTokens depth (t :: ts) = .ok (t :: r.1, r.2) := by
  rw [typeTokens]
  split
  · next heq => exact absurd heq heof
  · next heq => exact absurd heq (hpunct _)
  · rw [h]
    rfl

theorem typeTokens_of_nests {unclosed : List String} {ls : List Lexeme}
    (h : nests unclosed ls = true) (hts : ts.map (·.lexeme) = ls) {stop : Token}
    (hstop : stop.lexeme = .punct ";") (rest : Tokens) :
    typeTokens unclosed.length (ts ++ stop :: rest) = .ok (ts, stop :: rest) := by
  fun_induction nests unclosed ls generalizing ts with
  | case1 unclosed =>
    obtain rfl := List.isEmpty_iff.1 h
    obtain rfl := List.map_eq_nil_iff.1 hts
    rw [List.nil_append, typeTokens]
    simp only [hstop]
    rfl
  | case2 unclosed mark ls closing hcloser ih =>
    obtain ⟨t, ts, rfl, ht, hts⟩ := List.map_eq_cons_iff.1 hts
    have hopen : isOpening mark = true ∧ mark ∉ [";", ",", r"}"] := by
      rcases closer?_eq_some hcloser with ⟨rfl, -⟩ | ⟨rfl, -⟩ | ⟨rfl, -⟩ | ⟨rfl, -⟩ <;> decide
    refine typeTokens_mark ht (fun _ => hopen.2) (r := (ts, stop :: rest)) ?_
    rw [if_pos hopen.1]
    simpa using ih h hts
  | case3 mark ls closing outer hcloser hclosing ih =>
    obtain ⟨t, ts, rfl, ht, hts⟩ := List.map_eq_cons_iff.1 hts
    rw [Bool.and_eq_true] at h
    refine typeTokens_mark ht (by simp; omega) (r := (ts, stop :: rest)) ?_
    rw [if_neg (by simp [isOpening_eq_false hcloser]), if_pos hclosing]
    simpa using ih h.2 hts
  | case4 mark ls closing outer hcloser hclosing ih =>
    obtain ⟨t, ts, rfl, ht, hts⟩ := List.map_eq_cons_iff.1 hts
    refine typeTokens_mark ht (by simp; omega) (r := (ts, stop :: rest)) ?_
    rw [if_neg (by simp [isOpening_eq_false hcloser]), if_neg hclosing]
    exact ih h hts
  | case5 mark ls hcloser ih =>
    obtain ⟨t, ts, rfl, ht, hts⟩ := List.map_eq_cons_iff.1 hts
    simp only [Bool.and_eq_true, Bool.not_eq_true'] at h
    obtain ⟨⟨hclosing, hmark⟩, h⟩ := h
    refine typeTokens_mark ht (fun _ hmem => ?_) (r := (ts, stop :: rest)) ?_
    · simp only [List.mem_cons, List.not_mem_nil, or_false] at hmem
      rcases hmem with rfl | rfl | rfl
      · exact absurd hmark (by decide)
      · exact absurd hmark (by decide)
      · exact absurd hclosing (by decide)
    · rw [if_neg (by simp [isOpening_eq_false hcloser]), if_neg (by simp [hclosing])]
      exact ih h hts
  | case6 => cases h
  | case7 unclosed l ls hpunct heof ih =>
    obtain ⟨t, ts, rfl, ht, hts⟩ := List.map_eq_cons_iff.1 hts
    exact typeTokens_other (fun mark => ht ▸ hpunct mark) (ht ▸ heof) (ih h hts)

/-! ## The text of a type -/

/-- The text stands in the source at that place. -/
def Stands (source : List Char) (here : Cursor) (cs : List Char) : Prop :=
  ∃ before after, source = before ++ cs ++ after ∧ here.offset = before.length

variable {source : List Char} {here : Cursor}

theorem Stands.start (source : List Char) (line : Nat) : Stands source (.start line) source :=
  ⟨[], [], by simp, rfl⟩

theorem Stands.left {a b : List Char} (h : Stands source here (a ++ b)) : Stands source here a := by
  obtain ⟨before, after, hsource, hoffset⟩ := h
  exact ⟨before, b ++ after, by simpa using hsource, hoffset⟩

theorem Stands.right {a b : List Char} (h : Stands source here (a ++ b)) :
    Stands source (here.advance a) b := by
  obtain ⟨before, after, hsource, hoffset⟩ := h
  exact ⟨before ++ a, after, by simpa using hsource, by rw [offset_advance, hoffset]; simp⟩

theorem Stands.take_drop {cs : List Char} (h : Stands source here cs) :
    (source.drop here.offset).take cs.length = cs := by
  obtain ⟨before, after, rfl, hoffset⟩ := h
  rw [hoffset, List.append_assoc, List.drop_left, List.take_left]

theorem typeText_eq (h : Stands source here t.toList) (hsqueeze : Text.squeeze t = t)
    {first last : Token} (hfirst : ts.head? = some first) (hlast : ts.getLast? = some last)
    (hstart : first.start.offset = here.offset)
    (hstop : last.stop = here.offset + t.toList.length) : typeText source ts = t := by
  have hlength : last.stop - first.start.offset = t.toList.length := by omega
  simp only [typeText, hfirst, hlast]
  rw [hlength, hstart, h.take_drop, String.ofList_toList, hsqueeze]

/-- Code that can stand as the type of a field: with single spaces, without templates, and with
nested brackets around all semicolons and commas. -/
def isFieldType (t : String) : Bool :=
  !t.isEmpty && Text.squeeze t == t &&
    (codeIn t.toList).any fun ls => nests [] ls && ls.all (!isTemplate ·)

theorem exists_of_isFieldType (h : isFieldType t = true) :
    ∃ ls, Inline t ls ∧ nests [] ls = true ∧ t ≠ "" ∧ Text.squeeze t = t := by
  simp only [isFieldType, Bool.and_eq_true, Bool.not_eq_true', beq_iff_eq, Option.any_eq_true] at h
  obtain ⟨⟨hne, hsqueeze⟩, ls, hcode, hnests, hplain⟩ := h
  have hblank := (Text.isTrimmed_of_squeeze hsqueeze).2.2
  refine ⟨ls, ⟨Code.of_codeIn hcode, fun hmem => ?_, by simpa using hplain⟩, hnests, ?_, hsqueeze⟩
  · exact absurd (hblank _ hmem (by decide)) (by decide)
  · rintro rfl
    exact absurd hne (by decide)

/-- A type in the source, up to the semicolon after it. -/
theorem exists_typeTokens (h : isFieldType t = true) (here : Cursor) :
    ∃ ts, Cuts here t.toList none ts none ∧ ∀ source, Stands source here t.toList →
      typeText source ts = t ∧ ∀ stop rest, stop.lexeme = .punct ";" →
        typeTokens 0 (ts ++ stop :: rest) = .ok (ts, stop :: rest) := by
  obtain ⟨ls, hcode, hnests, hne, hsqueeze⟩ := exists_of_isFieldType h
  obtain ⟨hstart, hend, -⟩ := Text.isTrimmed_of_squeeze hsqueeze
  obtain ⟨ts, first, last, hcuts, hviews, hfirst, hlast, hoffset, hstop⟩ :=
    hcode.code.cuts_trimmed (mt String.toList_eq_nil_iff.1 hne) hstart hend here none
  have hlexemes : ts.map (·.lexeme) = ls := by
    have := congrArg (List.map (·.2)) hviews
    rw [viewed_none, List.map_map, List.map_map] at this
    simpa [Function.comp_def, view] using this
  exact ⟨ts, hcuts, fun source hstands =>
    ⟨typeText_eq hstands hsqueeze hfirst hlast hoffset hstop,
      fun stop rest hsemicolon => typeTokens_of_nests hnests hlexemes hsemicolon rest⟩⟩

/-! ## Fields -/

theorem isPunct_cons {t : Token} : Tokens.isPunct (t :: ts) mark = (t.lexeme == .punct mark) := rfl

/-- A field is its name, a colon, its type and a semicolon. -/
theorem field_eq {d : Nat} {name : String} {key : Token} (hkey : fieldName? key = some name)
    {seen : List String} (hseen : name ∉ seen) {required : Bool} {marks : Tokens}
    (hmarks : marks.map (·.lexeme) = (if required then [] else [.punct "?"]) ++ [.punct ":"])
    {type rest : Tokens} {stop : Token} (hstop : stop.lexeme = .punct ";")
    (htype : typeTokens 0 (type ++ stop :: rest) = .ok (type, stop :: rest))
    (htext : typeText source type = t) (hne : t ≠ "") {description : Option String} {value : Json}
    (hdoc : fieldDoc d name key = .ok (description, value)) :
    field d source seen (key :: (marks ++ (type ++ stop :: rest))) =
      .ok (⟨name, t, required, description, value⟩, rest) := by
  -- the mark of an optional field is passed over, if it is there
  obtain ⟨colon, hcolon, hafter, hrequired⟩ : ∃ colon : Token, colon.lexeme = .punct ":" ∧
      afterMark ["?"] (marks ++ (type ++ stop :: rest)) = colon :: (type ++ stop :: rest) ∧
      (!Tokens.isPunct (marks ++ (type ++ stop :: rest)) "?") = required := by
    cases required with
    | true =>
      obtain ⟨colon, marks, rfl, hcolon, hmarks⟩ := List.map_eq_cons_iff.1 hmarks
      obtain rfl := List.map_eq_nil_iff.1 hmarks
      exact ⟨colon, hcolon, by simp [afterMark, isPunct_cons, hcolon],
        by simp [isPunct_cons, hcolon]⟩
    | false =>
      obtain ⟨question, marks, rfl, hquestion, hmarks⟩ := List.map_eq_cons_iff.1 hmarks
      obtain ⟨colon, marks, rfl, hcolon, hmarks⟩ := List.map_eq_cons_iff.1 hmarks
      obtain rfl := List.map_eq_nil_iff.1 hmarks
      exact ⟨colon, hcolon, by simp [afterMark, isPunct_cons, hquestion, Tokens.next],
        by simp [isPunct_cons, hquestion]⟩
  refine field_eq_ok_iff.2 ⟨name, hkey, by simpa using hseen, ?_, type, stop :: rest, ?_, ?_,
    description, value, hdoc, by rw [htext, hrequired], ?_⟩
  · simp [hafter, isPunct_cons, hcolon]
  · rwa [hafter]
  · simpa [htext, String.isEmpty_iff] using hne
  · simp [afterMark, isPunct_cons, hstop, Tokens.next]

end Declaration

end EventFlow
