import EventFlow.Json.Writer
import EventFlow.Proofs.DocComment
import EventFlow.Proofs.Token.Documented
import EventFlow.Proofs.Token.Inline

/-! Where a written comment ends.

The lines of free text are escaped, so that none of them ends the comment. Tags are written as they
are, so the comment ends early exactly if a tag holds the end of one:

    "*/" before the end of the lines  ↔  "*/" in the name or the value of a tag

Only a comment that does not end early is one piece to the tokenizer. -/

namespace EventFlow.DocComment

open Text

open Token (Cuts EndsOnce tokenize)

/-! ## The end of a comment in its lines -/

theorem infix_tagLine_iff {tag : Tag} :
    ['*', '/'] <:+: tagLine tag ↔
      ['*', '/'] <:+: tag.name.toList ∨ ['*', '/'] <:+: tag.value.toList := by
  rw [tagLine, pair_infix_dropTrailingBlanks (by decide), List.append_assoc, List.append_assoc,
    List.singleton_append, List.singleton_append, List.infix_cons_iff, pair_prefix_iff,
    pair_infix_append, List.infix_cons_iff, pair_prefix_iff]
  simp

variable {text : Option String} {tags : List Tag} {indent : String}

theorem infix_starred_iff (hindent : IsIndent indent) {line : List Char} :
    ['*', '/'] <:+: (starred indent line).toList ↔ ['*', '/'] <:+: line := by
  have hno : '*' ∉ indent.toList := fun hmem => by simpa using List.all_eq_true.1 hindent _ hmem
  have hlist : (indent ++ " * " ++ String.ofList line).toList =
      indent.toList ++ ' ' :: '*' :: ' ' :: line := by
    simp [String.toList_append]
  rw [starred, trimEnd, String.toList_ofList, pair_infix_dropTrailingBlanks (by decide),
    hlist, pair_infix_append]
  simp only [List.infix_cons_iff, pair_prefix_iff]
  constructor
  · rintro (h | (⟨h, -⟩ | ⟨-, h⟩ | ⟨h, -⟩ | h) | ⟨h, -⟩)
    · exact absurd h (not_infix_pair hno)
    · exact absurd h (by decide)
    · simp at h
    · exact absurd h (by decide)
    · exact h
    · exact absurd (List.mem_of_getLast? h) hno
  · intro h
    exact Or.inr (Or.inl (Or.inr (Or.inr (Or.inr h))))

/-- What stands between the delimiters ends the comment if and only if a line does. -/
theorem infix_body_iff (hindent : IsIndent indent) {lines : List (List Char)} :
    ['*', '/'] <:+: '*' :: body indent lines ++ ['*'] ↔ ∃ l ∈ lines, ['*', '/'] <:+: l := by
  have hno : '*' ∉ indent.toList := fun hmem => by simpa using List.all_eq_true.1 hindent _ hmem
  -- the delimiters add nothing to a text that does not begin with a slash
  have houter : ∀ {m : List Char}, m.head? ≠ some '/' →
      (['*', '/'] <:+: '*' :: m ++ ['*'] ↔ ['*', '/'] <:+: m) := by
    intro m hhead
    rw [pair_infix_append, List.infix_cons_iff, pair_prefix_iff]
    have hsingle : ¬ ['*', '/'] <:+: ['*'] := by decide
    simp [hhead, hsingle]
  unfold body
  split
  · next line =>
    have hsingle : ¬ ['*', '/'] <:+: [' '] := by decide
    rw [houter (by simp), List.infix_cons_iff, pair_prefix_iff, pair_infix_append]
    simp [hsingle]
  · have hlast : ¬ ['*', '/'] <:+: '\n' :: (indent.toList ++ [' ']) :=
      not_infix_pair (by simp [hno])
    rw [houter (by simp), List.infix_cons_iff, pair_prefix_iff, pair_infix_append,
      pair_infix_unlines (by decide) (by decide)]
    simp [hlast, infix_starred_iff hindent]

/-- No line of free text ends the comment. -/
theorem infix_said_iff : (∃ l ∈ said text tags, ['*', '/'] <:+: l) ↔
    ∃ t ∈ tags, ['*', '/'] <:+: t.name.toList ∨ ['*', '/'] <:+: t.value.toList := by
  have htext : ∀ l ∈ textLines text, ¬ ['*', '/'] <:+: l := by
    intro l hl
    unfold textLines at hl
    split at hl
    · split at hl
      · cases hl
      · obtain ⟨line, -, rfl⟩ := List.mem_map.1 hl
        exact not_infix_escapeLine line
    · cases hl
  constructor
  · rintro ⟨l, hl, h⟩
    rcases List.mem_append.1 hl with hl | hl
    · exact absurd h (htext l hl)
    · obtain ⟨t, ht, rfl⟩ := List.mem_map.1 hl
      exact ⟨t, ht, infix_tagLine_iff.1 h⟩
  · rintro ⟨t, ht, h⟩
    exact ⟨tagLine t, List.mem_append_right _ (List.mem_map_of_mem ht), infix_tagLine_iff.2 h⟩

/-! ## The tokens of a comment -/

theorem toList_comment (indent : String) (lines : List (List Char)) :
    (comment indent lines).toList = '/' :: '*' :: '*' :: (body indent lines ++ ['*', '/']) := by
  simp [comment]

theorem endsOnce_comment_iff {lines : List (List Char)} :
    EndsOnce (comment indent lines) ↔ ¬ ['*', '/'] <:+: '*' :: body indent lines ++ ['*'] := by
  have hlist : ((comment indent lines).toList.drop 2).dropLast =
      '*' :: body indent lines ++ ['*'] := by
    rw [toList_comment]
    show ('*' :: (body indent lines ++ ['*', '/'])).dropLast = _
    rw [← List.cons_append, List.dropLast_append_of_ne_nil (by simp)]
    rfl
  rw [EndsOnce, hlist]

/-- The lines of a comment that ends once are one piece to the tokenizer. -/
theorem cuts_format (hindent : IsIndent indent) (hne : said text tags ≠ [])
    (h : EndsOnce (comment indent (said text tags))) (here : Cursor) (doc : Option String) :
    Cuts here (unlines (format text tags indent)).toList doc []
      (some (comment indent (said text tags))) := by
  have hblanks : Token.Code indent.toList [] := (Token.Inline.blanks hindent).code
  obtain ⟨ts, hcuts, hviews⟩ := hblanks.cuts here doc
  obtain rfl : ts = [] := by simpa [Token.viewed] using hviews
  rw [unlines_format hne, String.toList_append]
  refine hcuts.append
    (Token.Cuts.comment (toList_comment _ _) (endsOnce_comment_iff.1 h) _ _) ?_
  by_cases hempty : indent.toList = []
  · exact Or.inl hempty
  · refine Or.inr (Or.inr ⟨_, List.getLast?_eq_some_getLast hempty, ?_⟩)
    rw [of_decide_eq_true (List.all_eq_true.1 hindent _ (List.getLast_mem hempty))]
    decide

/-- The name after the text bears all of it, but for its indentation, as its comment. -/
def IsOneComment (indent source : String) : Prop :=
  ∃ x stop, tokenize (source ++ "\nx") = .ok [x, stop] ∧ x.lexeme = .identifier "x" ∧
    stop.lexeme = .eof ∧ x.doc.map (indent ++ ·) = some source

theorem isOneComment_iff (hindent : IsIndent indent)
    (hne : said text tags ≠ []) : IsOneComment indent (unlines (format text tags indent)) ↔
      EndsOnce (comment indent (said text tags)) := by
  constructor
  · rintro ⟨x, stop, htokens, -, -, hdoc⟩
    obtain ⟨raw, hraw, heq⟩ := Option.map_eq_some_iff.1 hdoc
    rw [unlines_format hne] at heq
    have hwhole : raw = comment indent (said text tags) := by
      have hlist := congrArg String.toList heq
      rw [String.toList_append, String.toList_append, List.append_cancel_left_eq] at hlist
      exact String.toList_inj.1 hlist
    rw [← hwhole]
    exact Token.endsOnce_doc htokens List.mem_cons_self hraw
  · intro h
    have hline : Token.Code "\nx".toList [.identifier "x"] :=
      Token.Code.of_codeIn (by decide +kernel)
    have hcomment := cuts_format hindent hne h (.start 1) none
    obtain ⟨ts, hcuts, hviews⟩ := hline.cuts
      ((Cursor.start 1).advance (unlines (format text tags indent)).toList)
      (some (comment indent (said text tags)))
    obtain ⟨x, ts, rfl, hx, hts⟩ := List.map_eq_cons_iff.1 hviews
    obtain rfl := List.map_eq_nil_iff.1 hts
    have hall := hcomment.append hcuts (Or.inr (Or.inl (by rintro y ⟨⟩; decide)))
    obtain ⟨stop, htokens, hstop⟩ := hall.tokenizeFrom
    rw [← String.toList_append] at htokens
    refine ⟨x, stop, htokens, congrArg (·.2) hx, hstop, ?_⟩
    have hdoc : x.doc = some (comment indent (said text tags)) := congrArg (·.1) hx
    rw [hdoc, Option.map_some, unlines_format hne]

/-- The lines of a comment are one comment to the tokenizer, and hold the end of a comment nowhere
but at their own end, if and only if no tag holds one. -/
theorem format_isOneComment_iff (text : Option String) (tags : List Tag) (indent : String)
    (hindent : indent.toList.all (· = ' ') = true) (hne : format text tags indent ≠ []) :
    (IsOneComment indent (unlines (format text tags indent)) ↔
      ¬ ∃ t ∈ tags, ['*', '/'] <:+: t.name.toList ∨ ['*', '/'] <:+: t.value.toList) ∧
    (¬ ['*', '/'] <:+: (unlines (format text tags indent)).toList.dropLast ↔
      ¬ ∃ t ∈ tags, ['*', '/'] <:+: t.name.toList ∨ ['*', '/'] <:+: t.value.toList) := by
  have hsaid : said text tags ≠ [] := fun h => hne (format_of_nil h)
  have htags : EndsOnce (comment indent (said text tags)) ↔
      ¬ ∃ t ∈ tags, ['*', '/'] <:+: t.name.toList ∨ ['*', '/'] <:+: t.value.toList := by
    rw [endsOnce_comment_iff, infix_body_iff hindent, infix_said_iff]
  refine ⟨(isOneComment_iff hindent hsaid).trans htags, Iff.trans ?_ htags⟩
  have hlist : (unlines (format text tags indent)).toList.dropLast =
      indent.toList ++ '/' :: '*' :: ('*' :: body indent (said text tags) ++ ['*']) := by
    have hsplit : (indent ++ comment indent (said text tags)).toList =
        (indent.toList ++ '/' :: '*' :: ('*' :: body indent (said text tags) ++ ['*'])) ++
          ['/'] := by
      simp [String.toList_append, toList_comment]
    rw [unlines_format hsaid, hsplit, List.dropLast_concat]
  have hno : '*' ∉ indent.toList := fun hmem => by simpa using List.all_eq_true.1 hindent _ hmem
  rw [endsOnce_comment_iff, hlist, pair_infix_append, List.infix_cons_iff,
    pair_prefix_iff, List.infix_cons_iff, pair_prefix_iff, not_iff_not]
  constructor
  · rintro (h | (⟨h, -⟩ | ⟨-, h⟩ | h) | ⟨h, -⟩)
    · exact absurd h (not_infix_pair hno)
    · exact absurd h (by decide)
    · simp at h
    · exact h
    · exact absurd (List.mem_of_getLast? h) hno
  · intro h
    exact Or.inr (Or.inl (Or.inr (Or.inr h)))

theorem format_isOneComment_iff_note :
    IsOneComment "  " (unlines (format (some "a */ b") [⟨"note", "* /"⟩] "  ")) ∧
      ¬ ['*', '/'] <:+:
        (unlines (format (some "a */ b") [⟨"note", "* /"⟩] "  ")).toList.dropLast := by
  obtain ⟨hone, hlast⟩ := format_isOneComment_iff (some "a */ b") [⟨"note", "* /"⟩] "  "
    (by decide) (by decide +kernel)
  exact ⟨hone.2 (by decide), hlast.2 (by decide)⟩

/-- The default of a field can end the comment that it stands in. -/
theorem format_default_not_isOneComment :
    format none [⟨"default", (Json.text "*/").write⟩] "" = ["/** @default \"*/\" */"] ∧
      ¬ IsOneComment "" (unlines (format none [⟨"default", (Json.text "*/").write⟩] "")) := by
  have hformat : format none [⟨"default", (Json.text "*/").write⟩] "" =
      ["/** @default \"*/\" */"] := by decide +kernel
  refine ⟨hformat, ?_⟩
  rw [hformat]
  rintro ⟨x, stop, htokens, -⟩
  have hnone : (tokenize (unlines ["/** @default \"*/\" */"] ++ "\nx")).toOption = none := by
    decide +kernel
  rw [htokens] at hnone
  cases hnone

end EventFlow.DocComment
