import EventFlow.Proofs.DocComment.Enclosed
import EventFlow.Proofs.DocComment.Settled
import EventFlow.Proofs.Emission.Lines

/-! Emitted lines with doc comments between them.

A comment is one piece to the tokenizer, the search for declarations goes past it, and the lexeme
after it bears it. `Section ts vs` says of some lines what they are to both: the lexemes `vs` with
their comments, and nothing that declares a type. -/

namespace EventFlow

open Text

namespace DocComment

/-- What a comment can say and give back. -/
structure IsFaithful (text : Option String) (tags : List Tag) : Prop where
  canonical : ∀ s ∈ text, IsCanonical s
  plain : ∀ t ∈ tags, IsPlainTag t
  start : tags = [] → ∀ s ∈ text, '\n' ∉ s.toList → IsTrimmedStart s.toList
  closed : ∀ t ∈ tags, ¬ ['*', '/'] <:+: tagLine t

/-- What a comment can say without ending early, though it may give less back. -/
structure IsSayable (text : Option String) (tags : List Tag) : Prop where
  canonical : ∀ s ∈ text, IsCanonical s
  plain : ∀ t ∈ tags, IsPlainTag t
  closed : ∀ t ∈ tags, ¬ ['*', '/'] <:+: tagLine t

variable {text : Option String} {tags : List Tag} {indent : String}

theorem IsFaithful.sayable (h : IsFaithful text tags) : IsSayable text tags :=
  ⟨h.canonical, h.plain, h.closed⟩

theorem IsFaithful.parse (h : IsFaithful text tags) (hindent : IsIndent indent)
    (hne : said text tags ≠ []) : parse (comment indent (said text tags)) = (text, tags) :=
  parse_comment h.canonical h.plain h.start hindent hne

theorem IsSayable.not_infix (h : IsSayable text tags) {line : List Char}
    (hline : line ∈ said text tags) : ¬ ['*', '/'] <:+: line := by
  intro hi
  obtain ⟨t, ht, htag⟩ := infix_said_iff.1 ⟨line, hline, hi⟩
  exact h.closed t ht (infix_tagLine_iff.2 htag)

theorem IsSayable.line (h : IsSayable text tags) {line : List Char}
    (hline : line ∈ said text tags) : IsTrimmedEnd line ∧ '\n' ∉ line :=
  mem_said h.canonical h.plain hline

theorem IsSayable.endsOnce (h : IsSayable text tags)
    (hindent : IsIndent indent) :
    Token.EndsOnce (comment indent (said text tags)) := by
  rw [endsOnce_comment_iff, infix_body_iff hindent]
  rintro ⟨l, hl, hi⟩
  exact h.not_infix hl hi

open Declaration Declaration.LineState in
/-- The search for declarations goes past a comment. -/
theorem IsSayable.skips (h : IsSayable text tags) (hindent : IsIndent indent)
    {P : LineState → Prop} {b a : Int} (hlevel : P (level b a)) (hremark : P (inRemark b a)) :
    Skips P (level b a) (format text tags indent) (level b a) := by
  match hsaid : said text tags with
  | [] =>
    rw [format_of_nil hsaid]
    rfl
  | [line] =>
    rw [format_of_one hsaid]
    exact Skips.comment hindent (h.not_infix (hsaid ▸ List.mem_cons_self)) b a hlevel
  | x :: y :: lines =>
    rw [format_of_many hsaid]
    refine Skips.comments hindent ?_ b a hlevel hremark
    intro t ht
    obtain ⟨l, hl, rfl⟩ := List.mem_map.1 ht
    rw [← hsaid] at hl
    exact fun hi => h.not_infix hl ((infix_starred_iff hindent).1 hi)

/-- Each line of a comment is one line, and no carriage return ends it. -/
theorem IsSayable.flat (h : IsSayable text tags) (hindent : IsIndent indent)
    {t : String} (ht : t ∈ format text tags indent) :
    '\n' ∉ t.toList ∧ Emission.HasPlainBreaks t.toList := by
  have hno : ∀ c ∈ indent.toList, c = ' ' := fun c hc =>
    of_decide_eq_true (List.all_eq_true.1 hindent c hc)
  have hindentFlat : '\n' ∉ indent.toList := fun hmem => absurd (hno _ hmem) (by decide)
  have hplain : ∀ {u : String}, '\n' ∉ u.toList → u.toList.getLast? ≠ some '\r' →
      '\n' ∉ u.toList ∧ Emission.HasPlainBreaks u.toList := fun hflat hlast =>
    ⟨hflat, fun hi => hflat (hi.subset (by simp)), hlast⟩
  match hsaid : said text tags with
  | [] =>
    rw [format_of_nil hsaid] at ht
    cases ht
  | [line] =>
    rw [format_of_one hsaid, List.mem_singleton] at ht
    have hline := (h.line (hsaid ▸ List.mem_cons_self : line ∈ said text tags)).2
    subst ht
    exact hplain (by simp [String.toList_append, hindentFlat, hline])
      (Emission.getLast?_ne_of_isTidy (Emission.isTidy_append (by decide)))
  | x :: y :: lines =>
    rw [format_of_many hsaid] at ht
    simp only [List.mem_append, List.mem_singleton] at ht
    rcases ht with (rfl | ht) | rfl
    · exact hplain (by simp [String.toList_append, hindentFlat])
        (Emission.getLast?_ne_of_isTidy (Emission.isTidy_append (by decide)))
    · obtain ⟨l, hl, rfl⟩ := List.mem_map.1 ht
      rw [← hsaid] at hl
      obtain ⟨hend, hline⟩ := h.line hl
      refine hplain ?_ fun hlast => ?_
      · rw [toList_starred hend]
        split <;> simp [hindentFlat, hline]
      · rw [starred, trimEnd, String.toList_ofList] at hlast
        exact absurd (isTrimmedEnd_dropTrailingBlanks _ _ hlast) (by decide)
    · exact hplain (by simp [String.toList_append, hindentFlat])
        (Emission.getLast?_ne_of_isTidy (Emission.isTidy_append (by decide)))

end DocComment

/-! ## Sections -/

namespace Emission

open Declaration Declaration.LineState Token

/-- The text spells the lexemes with their comments, wherever it stands. -/
def Documented (cs : List Char) (vs : List (Option String × Lexeme)) : Prop :=
  ∀ here, ∃ ts, Cuts here cs none ts none ∧ ts.map view = vs

/-- What some emitted lines are to the tokenizer and to the search for declarations. -/
structure Section (ts : List String) (vs : List (Option String × Lexeme)) : Prop where
  code : Documented (unlines ts).toList vs
  quiet : ∀ b a, ∃ b' a', Skips (fun _ => True) (level b a) (ts.flatMap lines) (level b' a')
  tidy : ∀ t ∈ ts, HasPlainBreaks t.toList

/-- Code without comments. -/
theorem documented_of_code {cs : List Char} {ls : List Lexeme} (h : Code cs ls) :
    Documented cs (ls.map (none, ·)) := by
  intro here
  obtain ⟨us, hcuts, hviews⟩ := h.cuts here none
  rw [ite_self] at hcuts
  exact ⟨us, hcuts, hviews.trans (viewed_none ls)⟩

theorem Section.of_lines {ts : List String} {ls : List Lexeme} (h : Lines ts ls) :
    Section ts (ls.map (none, ·)) where
  code := documented_of_code h.code
  quiet := h.quiet
  tidy := h.tidy

theorem unlines_append {a b : List String} (ha : a ≠ []) (hb : b ≠ []) :
    (unlines (a ++ b)).toList =
      (unlines a).toList ++ '\n' :: (unlines b).toList := by
  rw [unlines, joinWith_append ha hb]
  simp [unlines, String.toList_append]

theorem Cuts.line {here : Cursor} {cs : List Char} {x y : Option String} {ts : List Token}
    (h : Cuts (here.advance ['\n']) cs x ts y) : Cuts here ('\n' :: cs) x ts y := by
  have hblank : Code ['\n'] [] := Code.blanks (by decide)
  obtain ⟨us, hcuts, hviews⟩ := hblank.cuts here x
  obtain rfl : us = [] := by simpa [viewed] using hviews
  exact hcuts.append h (Or.inr (Or.inr ⟨'\n', rfl, by decide⟩))

theorem Section.append {a b : List String} {va vb : List (Option String × Lexeme)}
    (ha : Section a va) (hb : Section b vb) : Section (a ++ b) (va ++ vb) where
  code here := by
    obtain ⟨ts, hcuts, rfl⟩ := ha.code here
    by_cases hane : a = []
    · subst hane
      obtain ⟨us, hcuts', rfl⟩ := hb.code here
      have hempty : (unlines []).toList = [] := rfl
      rw [hempty] at hcuts
      exact ⟨ts ++ us, hcuts.append hcuts' (Or.inl rfl), List.map_append⟩
    by_cases hbne : b = []
    · subst hbne
      obtain ⟨us, hcuts', rfl⟩ := hb.code (here.advance (unlines a).toList)
      refine ⟨ts ++ us, ?_, List.map_append⟩
      have := hcuts.append hcuts' (Or.inr (Or.inl (by simp [unlines, joinWith])))
      simpa [unlines, joinWith] using this
    rw [unlines_append hane hbne]
    obtain ⟨us, hcuts', rfl⟩ := hb.code ((here.advance (unlines a).toList).advance ['\n'])
    exact ⟨ts ++ us, hcuts.append (Cuts.line hcuts') (Or.inr (Or.inl (by simp; decide))),
      List.map_append⟩
  quiet b' a' := by
    obtain ⟨b1, a1, h1⟩ := ha.quiet b' a'
    obtain ⟨b2, a2, h2⟩ := hb.quiet b1 a1
    rw [List.flatMap_append]
    exact ⟨b2, a2, h1.append h2⟩
  tidy t ht := by
    rcases List.mem_append.1 ht with ht | ht
    · exact ha.tidy t ht
    · exact hb.tidy t ht

theorem Section.empty : Section [""] [] := Section.of_lines (Lines.one Line.empty)

/-- The comment that is read above some code, if one is written there. -/
def docOf (text : Option String) (tags : List Tag) (indent : String) : Option String :=
  if DocComment.said text tags = [] then none
  else some (DocComment.comment indent (DocComment.said text tags))

/-- No comment is read where nothing was to be said, and otherwise one that says it. -/
theorem docOf_cases {text : Option String} {tags : List Tag} (h : DocComment.IsFaithful text tags)
    {indent : String} (hindent : IsIndent indent) :
    (docOf text tags indent = none ∧ text = none ∧ tags = []) ∨
      ∃ raw, docOf text tags indent = some raw ∧ DocComment.parse raw = (text, tags) := by
  unfold docOf
  split
  · next hsaid => exact Or.inl ⟨rfl, DocComment.said_eq_nil h.canonical hsaid⟩
  · next hsaid => exact Or.inr ⟨_, rfl, h.parse hindent hsaid⟩

/-- A text without tags is read from the comment above some code as it settles. -/
theorem docOf_settled {text : Option String} (h : ∀ s ∈ text, DocComment.IsCanonical s)
    {indent : String} (hindent : IsIndent indent) :
    ((docOf text [] indent).bind fun raw => (DocComment.parse raw).1) =
      text.map DocComment.settled := by
  cases text with
  | none => rfl
  | some s =>
    rw [docOf, if_neg (DocComment.said_ne_nil (h s rfl)), Option.bind_some,
      DocComment.parse_comment_settled (h s rfl) hindent]
    rfl

/-- Code with a comment above it. -/
theorem Section.commented {text : Option String} {tags : List Tag}
    (h : DocComment.IsSayable text tags) {indent : String}
    (hindent : IsIndent indent) {ts : List String} {ls : List Lexeme}
    (hts : Lines ts ls) (hls : ls ≠ []) :
    Section (DocComment.format text tags indent ++ ts) (viewed (docOf text tags indent) ls) := by
  unfold docOf
  by_cases hne : DocComment.said text tags = []
  · rw [DocComment.format_of_nil hne, if_pos hne, viewed_none]
    exact Section.of_lines hts
  rw [if_neg hne]
  have htsne : ts ≠ [] := by
    rintro rfl
    exact hls hts.eq_nil
  have hflat : (DocComment.format text tags indent).flatMap lines =
      DocComment.format text tags indent :=
    (flatMap_eq_map (g := id) fun t ht => lines_of_flat (h.flat hindent ht).1).trans
      (List.map_id _)
  refine ⟨fun here => ?_, fun b a => ?_, fun t ht => ?_⟩
  · rw [unlines_append (DocComment.format_ne_nil hne) htsne]
    have hcomment := DocComment.cuts_format hindent hne (h.endsOnce hindent) here none
    obtain ⟨us, hcuts, hviews⟩ := hts.code.cuts
      ((here.advance (unlines (DocComment.format text tags indent)).toList).advance ['\n'])
      (some (DocComment.comment indent (DocComment.said text tags)))
    rw [if_neg hls] at hcuts
    exact ⟨[] ++ us, hcomment.append (Cuts.line hcuts) (Or.inr (Or.inl (by simp; decide))), hviews⟩
  · obtain ⟨b', a', hquiet⟩ := hts.quiet b a
    rw [List.flatMap_append, hflat]
    exact ⟨b', a', (h.skips hindent trivial trivial).append hquiet⟩
  · rcases List.mem_append.1 ht with ht | ht
    · exact (h.flat hindent ht).2
    · exact hts.tidy t ht

end Emission

end EventFlow
