import EventFlow.DocComment
import EventFlow.Proofs.Text.Blank
import Mathlib.Data.List.Infix

/-! Doc comments are read back as they were written.

    parse (unlines (format text tags indent)) = (text, tags)

A line of text is escaped so that it neither ends the comment nor reads as a tag. Reading takes the
stars and the escapes away line by line, and the empty lines at both ends of the text. -/

namespace EventFlow.DocComment

open Text

variable {c : Char} {cs b line : List Char} {tags : List Tag} {lines : List (List Char)}
  {indent : String} {text : Option String}

/-! ## The end of the comment inside a line -/

/-- The end of a comment becomes harmless. -/
abbrev masked (cs : List Char) : List Char := replaceAll "*/" "*\\/" cs

theorem masked_end (cs : List Char) : masked ('*' :: '/' :: cs) = '*' :: '\\' :: '/' :: masked cs :=
  replaceAll_append "*/" "*\\/" (by decide) cs

theorem masked_cons (h : ¬ ['*', '/'] <+: c :: cs) : masked (c :: cs) = c :: masked cs :=
  replaceAll_cons h

/-- A text is masked from the left, two characters or one at a time. -/
theorem masked_induction {motive : List Char → Prop} (nil : motive [])
    (stop : ∀ cs, motive cs → motive ('*' :: '/' :: cs))
    (cons : ∀ c cs, ¬ ['*', '/'] <+: c :: cs → motive cs → motive (c :: cs)) (cs : List Char) :
    motive cs :=
  replaceAll_induction (by decide : ['*', '/'] ≠ []) nil stop cons cs

theorem head?_masked (cs : List Char) : (masked cs).head? = cs.head? := by
  induction cs using masked_induction with
  | nil => rfl
  | stop cs _ => rw [masked_end]; rfl
  | cons c cs h _ => rw [masked_cons h]; rfl

theorem getLast?_masked (cs : List Char) : (masked cs).getLast? = cs.getLast? := by
  induction cs using masked_induction with
  | nil => rfl
  | stop cs ih =>
    rw [masked_end]
    simp only [List.getLast?_cons, ih]
    simp
  | cons c cs h ih => rw [masked_cons h, List.getLast?_cons, List.getLast?_cons, ih]

/-- A masked text does not end a comment. -/
theorem not_infix_masked (cs : List Char) : ¬ ['*', '/'] <:+: masked cs := by
  induction cs using masked_induction with
  | nil => decide
  | stop cs ih =>
    rw [masked_end]
    simp only [List.infix_cons_iff, pair_prefix_iff, not_or]
    exact ⟨by simp, by simp, by simp, ih⟩
  | cons c cs h ih =>
    rw [masked_cons h, List.infix_cons_iff, pair_prefix_iff, head?_masked, not_or]
    exact ⟨fun hc => h (pair_prefix_iff.2 hc), ih⟩

/-- A mask of three characters is found only where two were masked. -/
theorem prefix_of_masked (h : ['*', '\\', '/'] <+: c :: masked cs) :
    ['*', '\\', '/'] <+: c :: cs := by
  obtain ⟨rfl, hrest⟩ := List.cons_prefix_cons.1 h
  refine List.cons_prefix_cons.2 ⟨rfl, ?_⟩
  clear h
  cases cs with
  | nil => exact hrest
  | cons d cs =>
    by_cases hd : ['*', '/'] <+: d :: cs
    · obtain ⟨rest, hd⟩ := hd
      rw [← hd] at hrest
      simp [masked_end] at hrest
    · rw [masked_cons hd, pair_prefix_iff, head?_masked] at hrest
      exact pair_prefix_iff.2 hrest

theorem unmasked_masked (h : ¬ ['*', '\\', '/'] <:+: cs) :
    replaceAll "*\\/" "*/" (masked cs) = cs := by
  induction cs using masked_induction with
  | nil => rfl
  | stop cs ih =>
    have hcs : ¬ ['*', '\\', '/'] <:+: cs := fun hi => h (hi.trans ⟨['*', '/'], [], by simp⟩)
    rw [masked_end]
    exact (replaceAll_append "*\\/" "*/" (by decide) (masked cs)).trans (by rw [ih hcs]; rfl)
  | cons c cs hc ih =>
    rw [List.infix_cons_iff, not_or] at h
    rw [masked_cons hc, replaceAll_cons, ih h.2]
    exact fun hp => h.1 (prefix_of_masked hp)

theorem mem_masked {x : Char} (h : x ∈ masked cs) : x ∈ cs ∨ x = '\\' := by
  induction cs using masked_induction with
  | nil => exact Or.inl h
  | stop cs ih =>
    rw [masked_end] at h
    simp only [List.mem_cons] at h ⊢
    rcases h with h | h | h | h
    · exact Or.inl (Or.inl h)
    · exact Or.inr h
    · exact Or.inl (Or.inr (Or.inl h))
    · rcases ih h with h | h
      · exact Or.inl (Or.inr (Or.inr h))
      · exact Or.inr h
  | cons c cs hc ih =>
    rw [masked_cons hc, List.mem_cons] at h
    rcases h with rfl | h
    · exact Or.inl List.mem_cons_self
    · rcases ih h with h | h
      · exact Or.inl (List.mem_cons_of_mem _ h)
      · exact Or.inr h

/-! ## Lines of text -/

theorem ne_of_isBlank {d : Char} (hc : isBlank c = true) (hd : isBlank d = false) :
    c ≠ d := by
  rintro rfl
  rw [hc] at hd
  cases hd

theorem masked_append (hb : b.all isBlank = true) (cs : List Char) :
    masked (b ++ cs) = b ++ masked cs :=
  replaceAll_blanks _ hb ⟨'*', rfl, by decide⟩ cs

/-- The first place where the old text can begin is where it stands. -/
theorem replaceFirst_append (hb : b.all isBlank = true) (hc : isBlank c = false)
    (old new cs : List Char) :
    replaceFirst (c :: old) new (b ++ (c :: old) ++ cs) = b ++ new ++ cs := by
  induction b with
  | nil =>
    show replaceFirst _ _ (c :: (old ++ cs)) = _
    rw [replaceFirst, ← List.cons_append, stripStart_append_self]
    rfl
  | cons d b ih =>
    rw [List.all_cons, Bool.and_eq_true] at hb
    have hnone : stripStart (c :: old) (d :: (b ++ (c :: old) ++ cs)) = none := by
      rw [stripStart_eq_none_iff, List.cons_prefix_cons]
      exact fun h => ne_of_isBlank hb.1 hc h.1.symm
    show replaceFirst _ _ (d :: (b ++ (c :: old) ++ cs)) = _
    rw [replaceFirst, hnone, ih hb.2]
    rfl

/-- A line is escaped after the blanks it begins with. -/
theorem escapeLine_eq (line : List Char) : ∃ b r, line = b ++ r ∧ b.all isBlank = true ∧
    IsTrimmedStart r ∧ dropBlanks line = r ∧
      escapeLine line = b ++ (if r.head? = some '@' then '\\' :: masked r else masked r) := by
  obtain ⟨b, r, rfl, hb, hr, hdrop⟩ := exists_blanks line
  refine ⟨b, r, rfl, hb, hr, hdrop, ?_⟩
  have hstart : IsTrimmedStart (masked r) := by
    intro c hc
    rw [head?_masked] at hc
    exact hr c hc
  have hat : startsWith "@" (masked r) = true ↔ r.head? = some '@' := by
    rw [startsWith_iff, ← head?_masked, List.head?_eq_some_iff]
    exact ⟨fun ⟨t, ht⟩ => ⟨t, ht.symm⟩, fun ⟨t, ht⟩ => ⟨t, ht.symm⟩⟩
  show (if startsWith "@" (dropBlanks (masked (b ++ r))) then
    replaceFirst ['@'] ['\\', '@'] (masked (b ++ r)) else masked (b ++ r)) = _
  rw [masked_append hb, dropBlanks_append hb, dropBlanks_of_isTrimmedStart hstart]
  by_cases h : r.head? = some '@'
  · obtain ⟨rest, hrest⟩ := List.head?_eq_some_iff.1 ((head?_masked r).trans h)
    rw [if_pos (hat.2 h), if_pos h, hrest]
    simpa using replaceFirst_append hb (by decide : isBlank '@' = false) [] ['\\', '@'] rest
  · rw [if_neg (fun h' => h (hat.1 h')), if_neg h]

/-- Nothing in the line reads as an escape. -/
structure IsPlainLine (line : List Char) : Prop where
  unmasked : ¬ ['*', '\\', '/'] <:+: line
  untagged : startsWith "\\@" (dropBlanks line) = false
  trimmed : IsTrimmedEnd line

instance (line : List Char) : Decidable (IsPlainLine line) :=
  decidable_of_iff (¬ ['*', '\\', '/'] <:+: line ∧
      startsWith "\\@" (dropBlanks line) = false ∧ IsTrimmedEnd line)
    ⟨fun h => ⟨h.1, h.2.1, h.2.2⟩, fun h => ⟨h.unmasked, h.untagged, h.trimmed⟩⟩

theorem unescapeLine_escapeLine (h : IsPlainLine line) : unescapeLine (escapeLine line) = line := by
  obtain ⟨b, r, rfl, hb, hr, hdrop, hescape⟩ := escapeLine_eq line
  have htagged := h.untagged
  rw [hdrop, Bool.eq_false_iff, ne_eq, startsWith_iff] at htagged
  have hmasked : replaceAll "*\\/" "*/" (b ++ masked r) = b ++ r := by
    rw [← masked_append hb, unmasked_masked h.unmasked]
  rw [hescape]
  unfold unescapeLine
  simp only
  by_cases hat : r.head? = some '@'
  · obtain ⟨rest, hrest⟩ := List.head?_eq_some_iff.1 ((head?_masked r).trans hat)
    have hbackslash : IsTrimmedStart ('\\' :: '@' :: rest) := by
      rintro c ⟨⟩
      decide
    have hmark : startsWith "\\@" ('\\' :: '@' :: rest) = true :=
      startsWith_iff.2 ⟨rest, rfl⟩
    rw [if_pos hat, hrest, dropBlanks_append hb,
      dropBlanks_of_isTrimmedStart hbackslash, if_pos hmark]
    have hfirst := replaceFirst_append hb (by decide : isBlank '\\' = false) ['@'] ['@'] rest
    rw [List.append_assoc, List.append_assoc] at hfirst
    rw [hrest] at hmasked
    exact (congrArg _ hfirst).trans hmasked
  · have hstart : IsTrimmedStart (masked r) := by
      intro c hc
      rw [head?_masked] at hc
      exact hr c hc
    have hmark : ¬ startsWith "\\@" (masked r) = true := by
      intro hmark
      have hp : ['\\', '@'] <+: masked r := startsWith_iff.1 hmark
      cases r with
      | nil => exact htagged hp
      | cons c r =>
        by_cases hc : ['*', '/'] <+: c :: r
        · obtain ⟨rest, hrest⟩ := hc
          rw [← hrest] at hp
          simp [masked_end] at hp
        · rw [masked_cons hc, pair_prefix_iff, head?_masked] at hp
          exact htagged (pair_prefix_iff.2 hp)
    rw [if_neg hat, dropBlanks_append hb, dropBlanks_of_isTrimmedStart hstart,
      if_neg hmark]
    exact hmasked

/-- An escaped line is no tag and does not end the comment. -/
theorem head?_escapeLine (line : List Char) : (escapeLine line).head? ≠ some '@' := by
  obtain ⟨b, r, -, hb, -, -, hescape⟩ := escapeLine_eq line
  rw [hescape]
  cases b with
  | nil =>
    rw [List.nil_append]
    split
    · simp
    · next h => rwa [head?_masked]
  | cons c b =>
    rw [List.all_cons, Bool.and_eq_true] at hb
    rw [List.cons_append, List.head?_cons, ne_eq, Option.some.injEq]
    exact ne_of_isBlank hb.1 (by decide)

theorem not_infix_of_blanks (hb : b.all isBlank = true) {x y : Char}
    (hx : isBlank x = false) : ¬ [x, y] <:+: b ∧ b.getLast? ≠ some x := by
  constructor
  · intro h
    rw [List.all_eq_true.1 hb x (h.subset (by simp))] at hx
    cases hx
  · intro h
    rw [List.all_eq_true.1 hb x (List.mem_of_getLast? h)] at hx
    cases hx

theorem not_infix_escapeLine (line : List Char) : ¬ ['*', '/'] <:+: escapeLine line := by
  obtain ⟨b, r, -, hb, -, -, hescape⟩ := escapeLine_eq line
  obtain ⟨hblanks, hlast⟩ := not_infix_of_blanks (x := '*') (y := '/') hb (by decide)
  have hr : ¬ ['*', '/'] <:+: (if r.head? = some '@' then '\\' :: masked r else masked r) := by
    split
    · rw [List.infix_cons_iff, pair_prefix_iff, not_or]
      exact ⟨by simp, not_infix_masked r⟩
    · exact not_infix_masked r
  rw [hescape, pair_infix_append]
  rintro (h | h | h)
  · exact hblanks h
  · exact hr h
  · exact hlast h.1

theorem getLast?_escapeLine (line : List Char) : (escapeLine line).getLast? = line.getLast? := by
  obtain ⟨b, r, rfl, -, -, -, hescape⟩ := escapeLine_eq line
  rw [hescape, List.getLast?_append, List.getLast?_append]
  split
  · next h =>
    obtain ⟨rest, rfl⟩ := List.head?_eq_some_iff.1 h
    rw [List.getLast?_cons, getLast?_masked, List.getLast?_cons]
    simp
  · rw [getLast?_masked]

theorem isTrimmedStart_escapeLine (h : IsTrimmedStart line) : IsTrimmedStart (escapeLine line) := by
  obtain ⟨b, r, rfl, hb, hr, -, hescape⟩ := escapeLine_eq line
  rw [hescape]
  cases b with
  | nil =>
    rw [List.nil_append]
    split
    · rintro c ⟨⟩
      decide
    · intro c hc
      rw [head?_masked] at hc
      exact hr c hc
  | cons c b => exact h

theorem mem_escapeLine {x : Char} (h : x ∈ escapeLine line) : x ∈ line ∨ x = '\\' := by
  obtain ⟨b, r, rfl, -, -, -, hescape⟩ := escapeLine_eq line
  rw [hescape, List.mem_append] at h
  have hmasked : x ∈ masked r → x ∈ b ++ r ∨ x = '\\' := fun hx =>
    (mem_masked hx).imp (List.mem_append_right b) id
  rcases h with h | h
  · exact Or.inl (List.mem_append_left r h)
  · split at h
    · rcases List.mem_cons.1 h with h | h
      · exact Or.inr h
      · exact hmasked h
    · exact hmasked h

/-! ## Tags -/

/-- The name of a tag is one word, and its value stands on one line. -/
structure IsPlainTag (tag : Tag) : Prop where
  name : ∀ c ∈ tag.name.toList, isBlank c = false
  start : IsTrimmedStart tag.value.toList
  stop : IsTrimmedEnd tag.value.toList
  line : '\n' ∉ tag.value.toList

theorem isPlainTag_iff (tag : Tag) :
    tag.name.toList.all (!isBlank ·) = true ∧ IsTrimmedStart tag.value.toList ∧
      IsTrimmedEnd tag.value.toList ∧ '\n' ∉ tag.value.toList ↔ IsPlainTag tag := by
  simp only [List.all_eq_true, Bool.not_eq_true']
  exact ⟨fun h => ⟨h.1, h.2.1, h.2.2.1, h.2.2.2⟩, fun h => ⟨h.name, h.start, h.stop, h.line⟩⟩

instance (tag : Tag) : Decidable (IsPlainTag tag) := decidable_of_iff _ (isPlainTag_iff tag)

theorem tagLine_eq {tag : Tag} (h : IsPlainTag tag) :
    tagLine tag = '@' :: (tag.name.toList ++
      (if tag.value.toList = [] then [] else ' ' :: tag.value.toList)) := by
  unfold tagLine
  split
  · next hempty =>
    have hname : IsTrimmedEnd (['@'] ++ tag.name.toList) := by
      intro c hc
      rcases List.mem_append.1 (List.mem_of_getLast? hc) with hc | hc
      · rw [List.mem_singleton.1 hc]
        decide
      · exact h.name c hc
    rw [hempty, List.append_nil, dropTrailingBlanks_append (by decide),
      dropTrailingBlanks_of_isTrimmedEnd hname]
    simp
  · next hne =>
    rw [dropTrailingBlanks_of_isTrimmedEnd (isTrimmedEnd_append h.stop hne)]
    simp

theorem splitFirst_name {name : List Char} (h : ∀ c ∈ name, isBlank c = false)
    (value : List Char) :
    splitFirst ' ' (name ++ (if value = [] then [] else ' ' :: value)) = (name, value) := by
  have hne : ∀ c ∈ name, (decide (c ≠ ' ')) = true := by
    intro c hc
    refine decide_eq_true ?_
    rintro rfl
    exact absurd (h ' ' hc) (by decide)
  rw [splitFirst, List.takeWhile_append_of_pos hne, List.dropWhile_append_of_pos hne]
  split
  · next hempty => simp [hempty]
  · simp

theorem tagOf_tagLine {tag : Tag} (h : IsPlainTag tag) :
    ∃ rest, tagLine tag = '@' :: rest ∧ tagOf rest = tag := by
  refine ⟨_, tagLine_eq h, ?_⟩
  rw [tagOf, splitFirst_name h.name]
  simp [trimChars_of_isTrimmed h.start h.stop]

theorem tagsAfter_eq (tag : Tag) (h : ∀ t ∈ tags, IsPlainTag t) {ends : List (List Char)}
    (hends : ends = [] ∨ ends = [[]]) : tagsAfter tag (tags.map tagLine ++ ends) = tag :: tags := by
  induction tags generalizing tag with
  | nil => rcases hends with rfl | rfl <;> rfl
  | cons t tags ih =>
    obtain ⟨rest, hline, htag⟩ := tagOf_tagLine (h t List.mem_cons_self)
    rw [List.map_cons, List.cons_append, hline, tagsAfter, htag,
      ih t fun u hu => h u (List.mem_cons_of_mem _ hu)]

theorem split_tags (h : ∀ t ∈ tags, IsPlainTag t) {ends : List (List Char)}
    (hends : ends = [] ∨ ends = [[]]) :
    split (tags.map tagLine ++ ends) = (if tags = [] then ends else [], tags) := by
  cases tags with
  | nil => rcases hends with rfl | rfl <;> rfl
  | cons t tags =>
    obtain ⟨rest, hline, htag⟩ := tagOf_tagLine (h t List.mem_cons_self)
    rw [List.map_cons, List.cons_append, hline, split, htag,
      tagsAfter_eq t (fun u hu => h u (List.mem_cons_of_mem _ hu)) hends]
    rfl

theorem split_append (h : ∀ l ∈ lines, l.head? ≠ some '@') (rest : List (List Char)) :
    split (lines ++ rest) = (lines.map unescapeLine ++ (split rest).1, (split rest).2) := by
  induction lines with
  | nil => rfl
  | cons l lines ih =>
    have hl := h l List.mem_cons_self
    rw [List.cons_append, split, ih fun m hm => h m (List.mem_cons_of_mem _ hm)]
    · rfl
    · rintro r rfl
      simp at hl

/-! ## Layouts -/

/-- What stands between the delimiters is found whatever blanks stand before the comment. -/
theorem inner_eq {indent : List Char} (hindent : indent.all isBlank = true) (body : List Char) :
    inner (indent ++ ("/**".toList ++ (body ++ "*/".toList))) = body := by
  have hend : IsTrimmedEnd ("/**".toList ++ (body ++ "*/".toList)) := by
    refine isTrimmedEnd_append (isTrimmedEnd_append ?_ (by decide)) (by simp)
    rintro c ⟨⟩
    decide
  have hstart : IsTrimmedStart ("/**".toList ++ (body ++ "*/".toList)) := by
    rintro c ⟨⟩
    decide
  have htrim := trimChars_eq (b := []) hindent rfl hstart hend
  rw [List.append_nil] at htrim
  have hends : endsWith "*/" (body ++ "*/".toList) = true :=
    endsWith_iff.2 (List.suffix_append _ _)
  unfold inner
  simp only
  rw [htrim, stripStart_append_self, Option.getD_some, if_pos hends]
  have hlen : (body ++ "*/".toList).length - 2 = body.length := by simp
  rw [hlen, List.take_left]

/-- A line of a longer comment. -/
abbrev starred (indent : String) (line : List Char) : String :=
  trimEnd (indent ++ " * " ++ String.ofList line)

theorem toList_starred (h : IsTrimmedEnd line) :
    (starred indent line).toList =
      indent.toList ++ ' ' :: '*' :: (if line = [] then [] else ' ' :: line) := by
  have hlist : (indent ++ " * " ++ String.ofList line).toList =
      indent.toList ++ ([' ', '*', ' '] ++ line) := by
    simp [String.toList_append]
  rw [starred, trimEnd, String.toList_ofList, hlist]
  split
  · next hempty =>
    have hstar : IsTrimmedEnd (indent.toList ++ [' ', '*']) := by
      refine isTrimmedEnd_append ?_ (by simp)
      rintro c ⟨⟩
      decide
    have hsplit : indent.toList ++ ([' ', '*', ' '] ++ line) =
        (indent.toList ++ [' ', '*']) ++ [' '] := by
      simp [hempty]
    rw [hsplit, dropTrailingBlanks_append (by decide),
      dropTrailingBlanks_of_isTrimmedEnd hstar]
  · next hne =>
    rw [dropTrailingBlanks_of_isTrimmedEnd
      (isTrimmedEnd_append (isTrimmedEnd_append h hne) (by simp))]
    rfl

theorem unstarred_starred (hindent : IsIndent indent) (h : IsTrimmedEnd line) :
    unstarred (starred indent line).toList = line := by
  have hblanks : (indent.toList ++ [' ']).all isBlank = true := by
    rw [List.all_append, Bool.and_eq_true]
    refine ⟨List.all_eq_true.2 fun c hc => ?_, by decide⟩
    rw [of_decide_eq_true (List.all_eq_true.1 hindent c hc)]
    decide
  have hend : IsTrimmedEnd ('*' :: (if line = [] then [] else ' ' :: line)) := by
    split
    · rintro c ⟨⟩
      decide
    · next hne => exact isTrimmedEnd_append (a := ['*', ' ']) h hne
  have hstart : IsTrimmedStart ('*' :: (if line = [] then [] else ' ' :: line)) := by
    rintro c ⟨⟩
    decide
  have htrim := trimChars_eq (b := []) hblanks rfl hstart hend
  rw [List.append_nil, List.append_assoc, List.singleton_append] at htrim
  unfold unstarred
  simp only
  rw [toList_starred h, htrim]
  by_cases hempty : line = []
  · rw [hempty]
    rfl
  · rw [if_neg hempty]
    exact dropTrailingBlanks_of_isTrimmedEnd h

/-! ## Comments -/

/-- A text that a comment can hold: it has no empty line at either end, and each line is plain. -/
structure IsCanonical (s : String) : Prop where
  first : (cut '\n' s.toList).head? ≠ some []
  last : (cut '\n' s.toList).getLast? ≠ some []
  lines : ∀ l ∈ cut '\n' s.toList, IsPlainLine l

instance (s : String) : Decidable (IsCanonical s) :=
  decidable_of_iff ((cut '\n' s.toList).head? ≠ some [] ∧
      (cut '\n' s.toList).getLast? ≠ some [] ∧
      ∀ l ∈ cut '\n' s.toList, IsPlainLine l)
    ⟨fun h => ⟨h.1, h.2.1, h.2.2⟩, fun h => ⟨h.first, h.last, h.lines⟩⟩

/-- The lines that a comment says, each of which is trimmed at its end and without a break. -/
def said (text : Option String) (tags : List Tag) : List (List Char) :=
  textLines text ++ tags.map tagLine

theorem textLines_eq {s : String} (h : IsCanonical s) :
    textLines (some s) = (cut '\n' s.toList).map escapeLine := by
  have hne : s.isEmpty = false := by
    rw [Bool.eq_false_iff]
    intro hempty
    obtain rfl := String.isEmpty_iff.1 hempty
    exact h.first rfl
  simp [textLines, hne]

theorem mem_said (htext : ∀ s ∈ text, IsCanonical s) (htags : ∀ t ∈ tags, IsPlainTag t)
    (h : line ∈ said text tags) : IsTrimmedEnd line ∧ '\n' ∉ line := by
  rcases List.mem_append.1 h with h | h
  · cases text with
    | none => cases h
    | some s =>
      rw [textLines_eq (htext s rfl)] at h
      obtain ⟨l, hl, rfl⟩ := List.mem_map.1 h
      refine ⟨?_, fun hmem => ?_⟩
      · intro c hc
        rw [getLast?_escapeLine] at hc
        exact ((htext s rfl).lines l hl).trimmed c hc
      · rcases mem_escapeLine hmem with hmem | hmem
        · exact not_mem_of_mem_cut hl hmem
        · exact absurd hmem (by decide)
  · obtain ⟨t, ht, rfl⟩ := List.mem_map.1 h
    have hplain := htags t ht
    refine ⟨isTrimmedEnd_dropTrailingBlanks _, fun hmem => ?_⟩
    rw [tagLine_eq hplain] at hmem
    have hvalue : '\n' ∉ (if t.value.toList = [] then [] else ' ' :: t.value.toList) := by
      split
      · simp
      · simpa using hplain.line
    simp only [List.mem_cons, List.mem_append] at hmem
    rcases hmem with hmem | hmem | hmem
    · exact absurd hmem (by decide)
    · exact absurd (hplain.name _ hmem) (by decide)
    · exact hvalue hmem

theorem dropEmptyEnds_eq (hfirst : lines.head? ≠ some []) (hlast : lines.getLast? ≠ some [])
    {a b : List (List Char)} (ha : a.all List.isEmpty = true) (hb : b.all List.isEmpty = true) :
    dropEmptyEnds (a ++ (lines ++ b)) = lines := by
  have hempty : ∀ {l : Option (List Char)}, l ≠ some [] → ∀ x ∈ l, x.isEmpty = false := by
    rintro _ hne x rfl
    rw [Bool.eq_false_iff]
    intro hx
    exact hne (by rw [List.isEmpty_iff.1 hx])
  exact dropWhile_ends ha hb (hempty hfirst) (hempty hlast)

/-- The lines of a comment are taken apart into its text and its tags. -/
theorem parse_of_contentLines {raw : String} (htext : ∀ s ∈ text, IsCanonical s)
    (htags : ∀ t ∈ tags, IsPlainTag t) {ends : List (List Char)} (hends : ends = [] ∨ ends = [[]])
    (h : contentLines raw.toList = ends ++ (said text tags ++ ends)) :
    parse raw = (text, tags) := by
  have hempty : ends.all List.isEmpty = true := by rcases hends with rfl | rfl <;> rfl
  have hunescape : ends.map unescapeLine = ends := by
    rcases hends with rfl | rfl
    · rfl
    · rfl
  have hheads : ∀ l ∈ ends ++ textLines text, l.head? ≠ some '@' := by
    intro l hl
    rcases List.mem_append.1 hl with hl | hl
    · have := List.isEmpty_iff.1 (List.all_eq_true.1 hempty l hl)
      simp [this]
    · cases text with
      | none => cases hl
      | some s =>
        rw [textLines_eq (htext s rfl)] at hl
        obtain ⟨m, -, rfl⟩ := List.mem_map.1 hl
        exact head?_escapeLine m
  have hsplit : split (contentLines raw.toList) =
      (ends ++ ((textLines text).map unescapeLine ++ if tags = [] then ends else []), tags) := by
    rw [h, said, List.append_assoc, ← List.append_assoc, split_append hheads,
      split_tags htags hends, List.map_append, hunescape, List.append_assoc]
  have htail : (if tags = [] then ends else []).all List.isEmpty = true := by
    split
    · exact hempty
    · rfl
  unfold parse
  rw [hsplit]
  cases text with
  | none =>
    have hdrop : dropEmptyEnds (ends ++ ([] ++ _)) = [] :=
      dropEmptyEnds_eq (by simp) (by simp) hempty htail
    dsimp only
    rw [textLines, List.map_nil, hdrop]
  | some s =>
    have hcanonical := htext s rfl
    have hlines : (textLines (some s)).map unescapeLine = cut '\n' s.toList := by
      rw [textLines_eq hcanonical, List.map_map]
      exact (List.map_congr_left fun l hl => unescapeLine_escapeLine (hcanonical.lines l hl)).trans
        (List.map_id _)
    have hdrop := dropEmptyEnds_eq hcanonical.first hcanonical.last hempty htail
    dsimp only
    rw [hlines, hdrop]
    split
    · next hnil => exact absurd hnil (cut_ne_nil _ _)
    · rw [unlines_cut, String.ofList_toList]

/-- What stands between the delimiters of a comment that says the given lines. -/
def body (indent : String) : List (List Char) → List Char
  | [line] => ' ' :: (line ++ [' '])
  | lines => '\n' :: ((unlines (lines.map (starred indent))).toList ++
      '\n' :: (indent.toList ++ [' ']))

/-- A comment as one text. -/
def comment (indent : String) (lines : List (List Char)) : String :=
  String.ofList ("/**".toList ++ (body indent lines ++ "*/".toList))

theorem format_of_nil (h : said text tags = []) : format text tags indent = [] := by
  rw [said] at h
  simp only [format, h]

theorem format_of_one (h : said text tags = [line]) :
    format text tags indent = [indent ++ "/** " ++ String.ofList line ++ " */"] := by
  rw [said] at h
  simp only [format, h]

theorem format_of_many {a : List Char} (h : said text tags = a :: b :: lines) :
    format text tags indent = [indent ++ "/**"] ++ (a :: b :: lines).map (starred indent) ++
      [indent ++ " */"] := by
  rw [said] at h
  simp only [format, h]

theorem format_ne_nil (h : said text tags ≠ []) : format text tags indent ≠ [] := by
  match hsaid : said text tags with
  | [] => exact absurd hsaid h
  | [line] => simp [format_of_one hsaid]
  | a :: b :: lines => simp [format_of_many hsaid]

theorem unlines_format (h : said text tags ≠ []) :
    unlines (format text tags indent) = indent ++ comment indent (said text tags) := by
  rw [← String.toList_inj]
  match hsaid : said text tags with
  | [] => exact absurd hsaid h
  | [line] =>
    rw [format_of_one hsaid]
    simp [unlines, joinWith, comment, body, String.toList_append]
  | a :: b :: lines =>
    rw [format_of_many hsaid, unlines, joinWith_append (by simp) (by simp),
      joinWith_append (by simp) (by simp)]
    simp [unlines, joinWith, comment, body, String.toList_append]

theorem map_unstarred (hindent : IsIndent indent)
    (h : ∀ l ∈ lines, IsTrimmedEnd l) :
    (lines.map fun l => (starred indent l).toList).map unstarred = lines := by
  induction lines with
  | nil => rfl
  | cons l lines ih =>
    rw [List.map_cons, List.map_cons, unstarred_starred hindent (h l List.mem_cons_self),
      ih fun m hm => h m (List.mem_cons_of_mem _ hm)]

/-- The lines of a comment are what it says, with an empty line at both ends if it is longer. -/
theorem contentLines_comment (hindent : IsIndent indent)
    (hlines : ∀ l ∈ lines, IsTrimmedEnd l ∧ '\n' ∉ l) (hone : ∀ l, lines = [l] → IsTrimmedStart l)
    (hne : lines ≠ []) (blanks : List Char) (hblanks : blanks.all isBlank = true) :
    ∃ ends, (ends = [] ∨ ends = [[]]) ∧
      contentLines (blanks ++ (comment indent lines).toList) = ends ++ (lines ++ ends) := by
  unfold contentLines
  simp only [comment, String.toList_ofList]
  rw [inner_eq hblanks]
  match lines with
  | [] => exact absurd rfl hne
  | [line] =>
    obtain ⟨hend, hflat⟩ := hlines line List.mem_cons_self
    refine ⟨[], Or.inl rfl, ?_⟩
    have hbody : (body indent [line]).contains '\n' = false := by
      simpa [body] using hflat
    rw [hbody]
    have htrim := trimChars_eq (a := [' ']) (b := [' ']) (by decide) (by decide)
      (hone line rfl) hend
    exact congrArg ([·]) htrim
  | a :: b :: lines =>
    refine ⟨[[]], Or.inr rfl, ?_⟩
    have hbody : (body indent (a :: b :: lines)).contains '\n' = true := by simp [body]
    have hflat : '\n' ∉ indent.toList := fun h =>
      absurd (of_decide_eq_true (List.all_eq_true.1 hindent _ h)) (by decide)
    have hcut : ∀ l ∈ a :: b :: lines, cut '\n' (starred indent l).toList =
        [(starred indent l).toList] := by
      intro l hl
      refine cut_of_not_mem ?_
      rw [toList_starred (hlines l hl).1]
      have hrest : '\n' ∉ (if l = [] then [] else ' ' :: l) := by
        split
        · simp
        · simpa using (hlines l hl).2
      simp [hflat, hrest]
    have hall : cut '\n' (body indent (a :: b :: lines)) =
        [[]] ++ ((a :: b :: lines).map (fun l => (starred indent l).toList) ++
          [indent.toList ++ [' ']]) := by
      show cut '\n' ('\n' :: (_ ++ '\n' :: (indent.toList ++ [' ']))) = _
      rw [cut_cons_sep, cut_append_sep, cut_unlines (by simp), List.flatMap_map,
        cut_of_not_mem (by simpa using hflat), flatMap_eq_map hcut]
      rfl
    have hlast : unstarred (indent.toList ++ [' ']) = [] := by
      have htrim : trimChars ((indent.toList ++ [' ']) ++ ([] ++ [])) = [] :=
        trimChars_eq ?_ rfl (by simp [IsTrimmedStart]) (by simp [IsTrimmedEnd])
      · rw [List.append_nil, List.append_nil] at htrim
        rw [unstarred, htrim]
        rfl
      · rw [List.all_append, Bool.and_eq_true]
        refine ⟨List.all_eq_true.2 fun c hc => ?_, by decide⟩
        rw [of_decide_eq_true (List.all_eq_true.1 hindent c hc)]
        decide
    rw [hbody, if_pos rfl, hall, List.map_append, List.map_append,
      map_unstarred hindent fun l hl => (hlines l hl).1, List.map_singleton, List.map_singleton,
      hlast]
    rfl

theorem said_eq_nil (h : ∀ s ∈ text, IsCanonical s) (hsaid : said text tags = []) :
    text = none ∧ tags = [] := by
  rw [said, List.append_eq_nil_iff, List.map_eq_nil_iff] at hsaid
  refine ⟨?_, hsaid.2⟩
  cases text with
  | none => rfl
  | some s =>
    rw [textLines_eq (h s rfl), List.map_eq_nil_iff] at hsaid
    exact absurd hsaid.1 (cut_ne_nil _ _)

section Reading

variable {text : Option String} (htext : ∀ s ∈ text, IsCanonical s) {tags : List Tag}
  (htags : ∀ t ∈ tags, IsPlainTag t)
  (hone : tags = [] → ∀ s ∈ text, '\n' ∉ s.toList → IsTrimmedStart s.toList) {indent : String}
  (hindent : IsIndent indent)

include htext htags hone hindent

/-- A comment is read as what was written into it, whatever blanks stand before it. -/
theorem parse_append_comment (hne : said text tags ≠ []) (blanks : String)
    (hblanks : blanks.toList.all isBlank = true) :
    parse (blanks ++ comment indent (said text tags)) = (text, tags) := by
  have hstart : ∀ l, said text tags = [l] → IsTrimmedStart l := by
    intro l hl
    cases tags with
    | cons t tags =>
      -- the only line is the tag
      have htag : tagLine t ∈ said text (t :: tags) := by simp [said]
      rw [hl, List.mem_singleton] at htag
      rw [← htag, tagLine_eq (htags t List.mem_cons_self)]
      rintro c ⟨⟩
      decide
    | nil =>
      cases text with
      | none => cases hl
      | some s =>
        rw [said, List.map_nil, List.append_nil, textLines_eq (htext s rfl)] at hl
        obtain ⟨line, hline, rfl⟩ := List.map_eq_singleton_iff.1 hl
        obtain ⟨rfl, hflat⟩ := cut_eq_singleton hline
        exact isTrimmedStart_escapeLine (hone rfl s rfl hflat)
  obtain ⟨ends, hends, hcontent⟩ := contentLines_comment hindent
    (fun l hl => mem_said htext htags hl) hstart hne blanks.toList hblanks
  rw [← String.toList_append] at hcontent
  exact parse_of_contentLines htext htags hends hcontent

theorem parse_comment (hne : said text tags ≠ []) :
    parse (comment indent (said text tags)) = (text, tags) := by
  have hparse := parse_append_comment htext htags hone hindent hne "" rfl
  rwa [String.empty_append] at hparse

end Reading

/-- The lines of a comment are read as the text and the tags that they were written for. -/
theorem parse_format (text : Option String) (tags : List Tag) (indent : String)
    (hindent : indent.toList.all (· = ' ') = true) (htext : ∀ s ∈ text, IsCanonical s)
    (hone : tags = [] → ∀ s ∈ text, '\n' ∉ s.toList → IsTrimmedStart s.toList)
    (htags : ∀ t ∈ tags, IsPlainTag t) (hsome : text ≠ none ∨ tags ≠ []) :
    parse (unlines (format text tags indent)) = (text, tags) := by
  have hne : said text tags ≠ [] := by
    intro hsaid
    obtain ⟨hnone, hnil⟩ := said_eq_nil htext hsaid
    exact hsome.elim (absurd hnone) (absurd hnil)
  have hblanks : indent.toList.all isBlank = true := by
    refine List.all_eq_true.2 fun c hc => ?_
    rw [of_decide_eq_true (List.all_eq_true.1 hindent c hc)]
    decide
  rw [unlines_format hne]
  exact parse_append_comment htext htags hone hindent hne indent hblanks

/-- A text whose lines look like tags, like the end of the comment and like stars of its own. -/
def disguised : String := "  @see a */ b\n\n* c\n*/"

theorem parse_format_disguised :
    IsCanonical disguised ∧ IsPlainTag ⟨"empty", ""⟩ ∧ IsPlainTag ⟨"note", "a  @b"⟩ ∧
      parse (unlines (format (some disguised) [⟨"empty", ""⟩, ⟨"note", "a  @b"⟩] "  ")) =
        (some disguised, [⟨"empty", ""⟩, ⟨"note", "a  @b"⟩]) := by
  have htext : IsCanonical disguised := by decide +kernel
  have hempty : IsPlainTag ⟨"empty", ""⟩ := by decide +kernel
  have hnote : IsPlainTag ⟨"note", "a  @b"⟩ := by decide +kernel
  refine ⟨htext, hempty, hnote, parse_format _ _ _ (by decide) (by simpa using htext) (by simp) ?_
    (Or.inl (by simp))⟩
  simpa using ⟨hempty, hnote⟩

end EventFlow.DocComment
