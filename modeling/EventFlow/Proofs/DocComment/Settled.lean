import EventFlow.Proofs.DocComment

/-! Texts that were read from a comment.

Reading takes the escapes, the blanks at the ends of lines and the empty lines at both ends away, so
what is left is canonical, and a comment can hold it again. A longer text comes back as it is. A
text of one line is written between the delimiters of one line, where the blanks before it are lost:

    parse raw = (some s, tags)
    parse (unlines (format (some s) [] "")) = (some (settled s), []) -/

namespace EventFlow.DocComment

open Text

variable {cs line : List Char} {x : Char} {s : String}

/-! ## Unescaped lines -/

/-- The end of a comment stands in the text again. -/
abbrev unmasked (cs : List Char) : List Char := replaceAll "*\\/" "*/" cs

theorem unmasked_mask (cs : List Char) :
    unmasked ('*' :: '\\' :: '/' :: cs) = '*' :: '/' :: unmasked cs :=
  replaceAll_append "*\\/" "*/" (by decide) cs

theorem unmasked_cons {c : Char} (h : ¬ ['*', '\\', '/'] <+: c :: cs) :
    unmasked (c :: cs) = c :: unmasked cs :=
  replaceAll_cons h

/-- A text is unmasked from the left, three characters or one at a time. -/
theorem unmasked_induction {motive : List Char → Prop} (nil : motive [])
    (mask : ∀ cs, motive cs → motive ('*' :: '\\' :: '/' :: cs))
    (cons : ∀ c cs, ¬ ['*', '\\', '/'] <+: c :: cs → motive cs → motive (c :: cs))
    (cs : List Char) : motive cs :=
  replaceAll_induction (by decide : ['*', '\\', '/'] ≠ []) nil mask cons cs

theorem head?_unmasked (cs : List Char) : (unmasked cs).head? = cs.head? := by
  induction cs using unmasked_induction with
  | nil => rfl
  | mask cs _ => rw [unmasked_mask]; rfl
  | cons c cs h _ => rw [unmasked_cons h]; rfl

theorem getLast?_unmasked (cs : List Char) : (unmasked cs).getLast? = cs.getLast? := by
  induction cs using unmasked_induction with
  | nil => rfl
  | mask cs ih =>
    rw [unmasked_mask]
    simp only [List.getLast?_cons, ih]
    simp
  | cons c cs h ih => rw [unmasked_cons h, List.getLast?_cons, List.getLast?_cons, ih]

theorem mem_unmasked (h : x ∈ unmasked cs) : x ∈ cs := by
  induction cs using unmasked_induction with
  | nil => exact h
  | mask cs ih =>
    rw [unmasked_mask, List.mem_cons, List.mem_cons] at h
    rcases h with rfl | rfl | h
    · simp
    · simp
    · simp [ih h]
  | cons c cs hc ih =>
    rw [unmasked_cons hc, List.mem_cons] at h
    rcases h with rfl | h
    · simp
    · simp [ih h]

/-- A pair that does not begin with a star is found where it was. -/
theorem pair_prefix_unmasked {y : Char} (hx : x ≠ '*') (h : [x, y] <+: unmasked cs) :
    [x, y] <+: cs := by
  cases cs with
  | nil => exact h
  | cons c cs =>
    have hhead := List.head?_eq_some_iff.2 ⟨_, (List.prefix_iff_eq_append.1 h).symm⟩
    rw [head?_unmasked, List.head?_cons, Option.some.injEq] at hhead
    subst hhead
    rw [unmasked_cons (fun hmask => hx (List.cons_prefix_cons.1 hmask).1.symm),
      pair_prefix_iff, head?_unmasked] at h
    exact pair_prefix_iff.2 h

/-- No mask is left in an unmasked text. -/
theorem not_infix_unmasked (cs : List Char) : ¬ ['*', '\\', '/'] <:+: unmasked cs := by
  induction cs using unmasked_induction with
  | nil => decide
  | mask cs ih =>
    rw [unmasked_mask]
    simp only [List.infix_cons_iff, List.cons_prefix_cons, not_or]
    exact ⟨by simp, by simp, ih⟩
  | cons c cs hc ih =>
    rw [unmasked_cons hc, List.infix_cons_iff, not_or]
    refine ⟨fun h => hc ?_, ih⟩
    obtain ⟨rfl, hpair⟩ := List.cons_prefix_cons.1 h
    exact List.cons_prefix_cons.2 ⟨rfl, pair_prefix_unmasked (by decide) hpair⟩

theorem startsWith_mark : startsWith "\\@" cs = true ↔ ['\\', '@'] <+: cs :=
  startsWith_iff

/-- A line is unescaped after the blanks it begins with. -/
theorem unescapeLine_eq (line : List Char) : ∃ b r, line = b ++ r ∧ b.all isBlank = true ∧
    IsTrimmedStart r ∧
      unescapeLine line = b ++ unmasked (if ['\\', '@'] <+: r then r.tail else r) := by
  obtain ⟨b, r, rfl, hb, hr, hdrop⟩ := exists_blanks line
  refine ⟨b, r, rfl, hb, hr, ?_⟩
  have hblanks : ∀ cs, unmasked (b ++ cs) = b ++ unmasked cs :=
    replaceAll_blanks _ hb ⟨'*', rfl, by decide⟩
  show unmasked (if startsWith "\\@" (dropBlanks (b ++ r)) then
    replaceFirst ['\\', '@'] ['@'] (b ++ r) else b ++ r) = _
  rw [hdrop]
  by_cases h : ['\\', '@'] <+: r
  · obtain ⟨rest, rfl⟩ := h
    have hfirst := replaceFirst_append hb (by decide : isBlank '\\' = false) ['@'] ['@'] rest
    rw [List.append_assoc, List.append_assoc] at hfirst
    rw [if_pos (startsWith_mark.2 ⟨rest, rfl⟩), if_pos ⟨rest, rfl⟩, hfirst, hblanks]
    rfl
  · rw [if_neg (startsWith_mark.not.2 h), if_neg h, hblanks]

theorem getLast?_unescapeLine (line : List Char) :
    (unescapeLine line).getLast? = line.getLast? := by
  obtain ⟨b, r, rfl, -, -, hunescape⟩ := unescapeLine_eq line
  rw [hunescape, List.getLast?_append, List.getLast?_append, getLast?_unmasked]
  split
  · next h =>
    obtain ⟨rest, rfl⟩ := h
    simp [List.getLast?_cons]
  · rfl

theorem mem_unescapeLine (h : x ∈ unescapeLine line) : x ∈ line := by
  obtain ⟨b, r, rfl, -, -, hunescape⟩ := unescapeLine_eq line
  rw [hunescape, List.mem_append] at h
  rcases h with h | h
  · exact List.mem_append_left r h
  · refine List.mem_append_right b ?_
    have hmem := mem_unmasked h
    split at hmem
    · exact List.mem_of_mem_tail hmem
    · exact hmem

/-- Nothing in an unescaped line reads as an escape. -/
theorem isPlainLine_unescapeLine (h : IsTrimmedEnd line) :
    IsPlainLine (unescapeLine line) where
  unmasked := by
    obtain ⟨b, r, -, hb, -, hunescape⟩ := unescapeLine_eq line
    rw [hunescape, ← replaceAll_blanks _ hb ⟨'*', rfl, by decide⟩]
    exact not_infix_unmasked _
  untagged := by
    obtain ⟨b, r, -, hb, hr, hunescape⟩ := unescapeLine_eq line
    rw [hunescape, dropBlanks_append hb, Bool.eq_false_iff, ne_eq, startsWith_mark]
    have hdrop : ∀ {cs}, IsTrimmedStart cs → dropBlanks (unmasked cs) = unmasked cs := by
      intro cs hcs
      refine dropBlanks_of_isTrimmedStart fun c hc => hcs c ?_
      rwa [head?_unmasked] at hc
    split
    · next hescape =>
      -- the backslash is gone, and an at sign stands in its place
      obtain ⟨rest, rfl⟩ := hescape
      have hat : IsTrimmedStart ('@' :: rest) := by
        rintro c ⟨⟩
        decide
      show ¬ ['\\', '@'] <+: dropBlanks (unmasked ('@' :: rest))
      rw [hdrop hat]
      intro hmark
      have hpair := pair_prefix_unmasked (by decide) hmark
      exact absurd (List.cons_prefix_cons.1 hpair).1 (by decide)
    · next hescape =>
      rw [hdrop hr]
      exact fun hmark => hescape (pair_prefix_unmasked (by decide) hmark)
  trimmed c hc := by
    rw [getLast?_unescapeLine] at hc
    exact h c hc

/-! ## The lines of a comment -/

theorem mem_of_mem_dropBlanks (h : x ∈ dropBlanks cs) : x ∈ cs :=
  (List.dropWhile_sublist _).subset h

theorem mem_of_mem_dropTrailingBlanks (h : x ∈ dropTrailingBlanks cs) : x ∈ cs := by
  have hmem := (List.dropWhile_sublist _).subset (List.mem_reverse.1 h)
  exact List.mem_reverse.1 hmem

theorem mem_of_mem_trimChars (h : x ∈ trimChars cs) : x ∈ cs :=
  mem_of_mem_dropBlanks (mem_of_mem_dropTrailingBlanks h)

theorem mem_of_mem_unstarred (h : x ∈ unstarred line) : x ∈ line := by
  have hmem := mem_of_mem_dropTrailingBlanks h
  refine mem_of_mem_trimChars ?_
  split at hmem
  · next rest heq => exact heq ▸ List.mem_cons_of_mem _ (List.mem_cons_of_mem _ hmem)
  · next rest _ heq => exact heq ▸ List.mem_cons_of_mem _ hmem
  · exact hmem

/-- The lines of any comment are trimmed at their ends. -/
theorem mem_contentLines {raw : List Char} (h : line ∈ contentLines raw) :
    IsTrimmedEnd line ∧ '\n' ∉ line := by
  unfold contentLines at h
  dsimp only at h
  split at h
  · obtain ⟨l, hl, rfl⟩ := List.mem_map.1 h
    exact ⟨isTrimmedEnd_dropTrailingBlanks _,
      fun hmem => not_mem_of_mem_cut hl (mem_of_mem_unstarred hmem)⟩
  · next hflat =>
    obtain rfl := List.mem_singleton.1 h
    refine ⟨isTrimmedEnd_dropTrailingBlanks _, fun hmem => hflat ?_⟩
    simpa using mem_of_mem_trimChars hmem

theorem mem_split {lines : List (List Char)} (h : line ∈ (split lines).1) :
    ∃ l ∈ lines, line = unescapeLine l := by
  fun_induction split lines with
  | case1 => cases h
  | case2 => cases h
  | case3 l lines _ text tags hsplit ih =>
    rcases List.mem_cons.1 h with rfl | h
    · exact ⟨l, List.mem_cons_self, rfl⟩
    · rw [hsplit] at ih
      obtain ⟨m, hm, hline⟩ := ih h
      exact ⟨m, List.mem_cons_of_mem _ hm, hline⟩

/-! Empty lines at the ends are dropped, and no others. -/

theorem head?_dropWhile_isEmpty (lines : List (List Char)) :
    (lines.dropWhile List.isEmpty).head? ≠ some [] := by
  intro h
  have hkept := List.head?_dropWhile_not List.isEmpty lines
  rw [h] at hkept
  exact absurd hkept (by decide)

theorem mem_of_mem_dropEmptyEnds {lines : List (List Char)} (h : line ∈ dropEmptyEnds lines) :
    line ∈ lines := by
  have hmem := (List.dropWhile_sublist _).subset (List.mem_reverse.1 h)
  exact (List.dropWhile_sublist _).subset (List.mem_reverse.1 hmem)

theorem getLast?_dropEmptyEnds (lines : List (List Char)) :
    (dropEmptyEnds lines).getLast? ≠ some [] := by
  rw [dropEmptyEnds, List.getLast?_reverse]
  exact head?_dropWhile_isEmpty _

theorem head?_dropEmptyEnds (lines : List (List Char)) :
    (dropEmptyEnds lines).head? ≠ some [] := by
  have hprefix : dropEmptyEnds lines <+: lines.dropWhile List.isEmpty := by
    rw [dropEmptyEnds, ← List.reverse_suffix, List.reverse_reverse]
    exact List.dropWhile_suffix _
  intro h
  obtain ⟨rest, hrest⟩ := List.head?_eq_some_iff.1 h
  rw [hrest] at hprefix
  obtain ⟨more, hmore⟩ := hprefix
  exact head?_dropWhile_isEmpty lines (by rw [← hmore]; rfl)

theorem cut_unlines_ofList {lines : List (List Char)} (hne : lines ≠ [])
    (hflat : ∀ l ∈ lines, '\n' ∉ l) :
    cut '\n' (unlines (lines.map String.ofList)).toList = lines := by
  rw [cut_unlines (by simpa using hne), List.flatMap_map]
  refine (flatMap_eq_map (g := id) fun l hl => ?_).trans (List.map_id lines)
  rw [String.toList_ofList, cut_of_not_mem (hflat l hl)]
  rfl

/-- What a comment says can be said by a comment. -/
theorem isCanonical_of_parse {raw : String} {tags : List Tag} (h : parse raw = (some s, tags)) :
    IsCanonical s := by
  unfold parse at h
  dsimp only at h
  split at h
  · simp at h
  · next hne =>
    rw [Prod.mk.injEq, Option.some.injEq] at h
    obtain ⟨rfl, -⟩ := h
    have hplain : ∀ l ∈ dropEmptyEnds (split (contentLines raw.toList)).1,
        IsPlainLine l ∧ '\n' ∉ l := by
      intro l hl
      obtain ⟨m, hm, rfl⟩ := mem_split (mem_of_mem_dropEmptyEnds hl)
      obtain ⟨hend, hflat⟩ := mem_contentLines hm
      exact ⟨isPlainLine_unescapeLine hend, fun hmem => hflat (mem_unescapeLine hmem)⟩
    have hcut := cut_unlines_ofList hne fun l hl => (hplain l hl).2
    constructor
    · rw [hcut]
      exact head?_dropEmptyEnds _
    · rw [hcut]
      exact getLast?_dropEmptyEnds _
    · rw [hcut]
      exact fun l hl => (hplain l hl).1

/-! ## Texts of one line -/

/-- The text as it is read again: one of a single line loses the blanks before it. -/
def settled (s : String) : String := if '\n' ∈ s.toList then s else trimStart s

theorem settled_eq_self_iff : settled s = s ↔ '\n' ∈ s.toList ∨ IsTrimmedStart s.toList := by
  unfold settled
  split
  · next h => simp [h]
  · next h =>
    rw [← String.toList_inj, trimStart, String.toList_ofList]
    refine ⟨fun heq => Or.inr ?_, fun hstart => ?_⟩
    · obtain ⟨b, r, -, -, hr, hdrop⟩ := exists_blanks s.toList
      rw [← heq, hdrop]
      exact hr
    · exact dropBlanks_of_isTrimmedStart (hstart.resolve_left h)

/-- A line of text without the blanks before it can still be said. -/
theorem isCanonical_trimStart (h : IsCanonical s) (hline : '\n' ∉ s.toList) :
    IsCanonical (trimStart s) := by
  obtain ⟨b, r, hs, hb, hr, hdrop⟩ := exists_blanks s.toList
  have hcut : cut '\n' s.toList = [b ++ r] := by rw [cut_of_not_mem hline, hs]
  obtain ⟨hfirst, -, hplain⟩ := h
  rw [hcut] at hfirst
  have hall := hplain (b ++ r) (by rw [hcut]; exact List.mem_cons_self)
  have hne : r ≠ [] := by
    rintro rfl
    rw [List.append_nil] at hfirst hall
    have hbne : b ≠ [] := fun hnil => hfirst (by rw [hnil]; rfl)
    have hlast := hall.trimmed _ (List.getLast?_eq_some_getLast hbne)
    rw [List.all_eq_true.1 hb _ (List.getLast_mem hbne)] at hlast
    cases hlast
  have hcut' : cut '\n' (trimStart s).toList = [r] := by
    rw [trimStart, String.toList_ofList, hdrop, cut_of_not_mem]
    exact fun hmem => hline (hs ▸ List.mem_append_right b hmem)
  have huntagged := hall.untagged
  rw [dropBlanks_append hb] at huntagged
  constructor
  · rw [hcut']
    simpa using hne
  · rw [hcut']
    simpa using hne
  · rw [hcut', List.forall_mem_singleton]
    refine ⟨fun hi => hall.unmasked (hi.trans (List.suffix_append b r).isInfix), huntagged, ?_⟩
    intro c hc
    refine hall.trimmed c ?_
    rw [List.getLast?_append]
    simp [Option.mem_def.1 hc]

theorem contentLines_one {indent : String} (h : '\n' ∉ line) :
    contentLines (comment indent [line]).toList = [trimChars (' ' :: (line ++ [' ']))] := by
  have hinner := inner_eq (rfl : ([] : List Char).all isBlank = true) (body indent [line])
  rw [List.nil_append] at hinner
  unfold contentLines
  simp only [comment, String.toList_ofList]
  rw [hinner, if_neg (by simpa [body] using h)]
  rfl

/-- Blanks before the text of a comment of one line are not read. -/
theorem parse_comment_blanks {indent : String} {b : List Char} (hb : b.all isBlank = true)
    (h : '\n' ∉ b ++ line) :
    parse (comment indent [b ++ line]) = parse (comment indent [line]) := by
  have hspace : ([' '] : List Char).all isBlank = true := by decide
  have hblanks : (' ' :: b).all isBlank = true := by
    rw [List.all_cons, hb]
    decide
  have htrim : trimChars (' ' :: (b ++ line ++ [' '])) =
      trimChars (' ' :: (line ++ [' '])) := by
    have hlong : ' ' :: (b ++ line ++ [' ']) = (' ' :: b) ++ (line ++ [' ']) := by simp
    have hshort : ' ' :: (line ++ [' ']) = [' '] ++ (line ++ [' ']) := rfl
    rw [hlong, hshort, trimChars, dropBlanks_append hblanks, trimChars,
      dropBlanks_append hspace]
  have hline : '\n' ∉ line := fun hmem => h (List.mem_append_right b hmem)
  unfold parse
  rw [contentLines_one h, contentLines_one hline, htrim]

theorem escapeLine_append {b r : List Char} (hb : b.all isBlank = true)
    (hr : IsTrimmedStart r) : escapeLine (b ++ r) = b ++ escapeLine r := by
  have hdrop : ∀ {b : List Char}, b.all isBlank = true → dropBlanks (b ++ r) = r := by
    intro b hb
    rw [dropBlanks_append hb, dropBlanks_of_isTrimmedStart hr]
  have hescape : ∀ {b : List Char}, b.all isBlank = true → escapeLine (b ++ r) =
      b ++ (if r.head? = some '@' then '\\' :: masked r else masked r) := by
    intro b hb
    obtain ⟨c, t, heq, -, -, ht, hescape⟩ := escapeLine_eq (b ++ r)
    obtain rfl : r = t := (hdrop hb).symm.trans ht
    obtain rfl : b = c := List.append_cancel_right heq
    exact hescape
  rw [hescape hb, ← List.nil_append r, hescape rfl]
  rfl

theorem said_one (h : IsCanonical s) (hline : '\n' ∉ s.toList) :
    said (some s) [] = [escapeLine s.toList] := by
  rw [said, textLines_eq h, cut_of_not_mem hline]
  rfl

theorem said_ne_nil (h : IsCanonical s) : said (some s) [] ≠ [] := by
  rw [said, textLines_eq h]
  simp [cut_ne_nil]

/-- A text that can be said is read from its comment as it settles. -/
theorem parse_comment_settled (h : IsCanonical s) {indent : String}
    (hindent : IsIndent indent) :
    parse (comment indent (said (some s) [])) = (some (settled s), []) := by
  have hparse : ∀ {t : String}, IsCanonical t → ('\n' ∉ t.toList → IsTrimmedStart t.toList) →
      parse (comment indent (said (some t) [])) = (some t, []) := by
    intro t ht hstart
    exact parse_comment (by simpa using ht) (by simp) (by simpa using hstart) hindent
      (said_ne_nil ht)
  unfold settled
  split
  · next hlines => exact hparse h fun hline => absurd hlines hline
  · next hline =>
    obtain ⟨b, r, hs, hb, hr, hdrop⟩ := exists_blanks s.toList
    have htrim : (trimStart s).toList = r := by
      rw [trimStart, String.toList_ofList, hdrop]
    have hcanonical := isCanonical_trimStart h hline
    have hflat : '\n' ∉ (trimStart s).toList := by
      rw [htrim]
      exact fun hmem => hline (hs ▸ List.mem_append_right b hmem)
    have hescaped : '\n' ∉ b ++ escapeLine r := by
      rw [← escapeLine_append hb hr, ← hs]
      intro hmem
      rcases mem_escapeLine hmem with hmem | hmem
      · exact hline hmem
      · exact absurd hmem (by decide)
    rw [said_one h hline, hs, escapeLine_append hb hr, parse_comment_blanks hb hescaped, ← htrim,
      ← said_one hcanonical hflat]
    exact hparse hcanonical fun _ => htrim ▸ hr

end EventFlow.DocComment
