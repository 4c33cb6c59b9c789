import EventFlow.Proofs.Text.Blank

/-! Texts with single spaces.

A run of blanks ends at every other character, so a text is squeezed part by part:

    collapse r (a ++ c :: b) = collapse r a ++ c :: collapse false b     if c is no blank
    squeezed r (a ++ c :: b) = collapse r a ++ c :: squeezed false b

What is left are the words of the text with single spaces between them, and no two squeezed texts
have the same words:

    squeeze a = squeeze b  ↔  words a = words b -/

namespace EventFlow.Text

variable {c : Char} {s : String} {w cs : List Char}

/-! ## Runs of blanks -/

theorem collapse_cons (h : isBlank c = false) (r : Bool) (cs : List Char) :
    collapse r (c :: cs) = c :: collapse false cs := by
  simp [collapse, h]

theorem collapse_blank (h : isBlank c = true) (r : Bool) (cs : List Char) :
    collapse r (c :: cs) = (if r then [] else [' ']) ++ collapse true cs := by
  cases r <;> simp [collapse, h]

/-- A run of blanks ends at every other character. -/
theorem collapse_append_cons (h : isBlank c = false) (r : Bool) (a b : List Char) :
    collapse r (a ++ c :: b) = collapse r a ++ c :: collapse false b := by
  induction a generalizing r with
  | nil => exact collapse_cons h r b
  | cons d a ih =>
    cases hd : isBlank d with
    | true => rw [List.cons_append, collapse_blank hd, collapse_blank hd, ih, List.append_assoc]
    | false => rw [List.cons_append, collapse_cons hd, collapse_cons hd, ih, List.cons_append]

/-- Text without blanks stays as it is. -/
theorem collapse_append_of_not_blank (h : ∀ c ∈ w, isBlank c = false) (rest : List Char) :
    collapse false (w ++ rest) = w ++ collapse false rest := by
  induction w with
  | nil => rfl
  | cons c w ih =>
    rw [List.cons_append, collapse_cons (h c List.mem_cons_self),
      ih fun d hd => h d (List.mem_cons_of_mem _ hd), List.cons_append]

/-- Which character a text begins with can be seen after its blanks are collapsed. -/
theorem head?_collapse {c d : Char} (hc : isBlank c = false) (hne : d ≠ c) (a b b' : List Char) :
    (collapse false a ++ d :: b).head? = some c ↔ (a ++ d :: b').head? = some c := by
  cases a with
  | nil => simp [collapse, hne]
  | cons x a =>
    cases hx : isBlank x with
    | true =>
      have hxc : x ≠ c := by
        rintro rfl
        rw [hc] at hx
        cases hx
      have hsc : ' ' ≠ c := by
        rintro rfl
        cases hc
      rw [collapse_blank hx]
      simp [hxc, hsc]
    | false =>
      rw [collapse_cons hx]
      rfl

theorem eq_of_mem_collapse {inRun : Bool} (h : c ∈ collapse inRun cs) (hc : isBlank c = true) :
    c = ' ' := by
  fun_induction collapse inRun cs with
  | case1 => cases h
  | case2 d rest hd ih => exact ih h
  | case3 inRun d rest hd hrun ih =>
    rcases List.mem_cons.1 h with rfl | h
    · rfl
    · exact ih h
  | case4 inRun d rest hd ih =>
    rcases List.mem_cons.1 h with rfl | h
    · exact absurd hc hd
    · exact ih h

theorem isTrimmedStart_collapse (cs : List Char) : IsTrimmedStart (collapse true cs) := by
  induction cs with
  | nil => simp [collapse, IsTrimmedStart]
  | cons c cs ih =>
    cases hc : isBlank c with
    | true => rwa [collapse_blank hc, if_pos rfl, List.nil_append]
    | false =>
      rw [collapse_cons hc]
      rintro d ⟨⟩
      exact hc

theorem dropBlanks_collapse (cs : List Char) :
    dropBlanks (collapse false cs) = collapse true cs := by
  have hdrop : dropBlanks (collapse true cs) = collapse true cs :=
    dropBlanks_of_isTrimmedStart (isTrimmedStart_collapse cs)
  cases cs with
  | nil => rfl
  | cons c cs =>
    cases hc : isBlank c with
    | true =>
      rw [collapse_blank hc] at hdrop ⊢
      rw [collapse_blank hc]
      exact hdrop
    | false =>
      rw [collapse_cons hc] at hdrop ⊢
      rw [collapse_cons hc]
      exact hdrop

/-! ## Squeezed text -/

/-- What `squeeze` writes for the rest of a text; `inRun` says that a blank or nothing at all stands
before it. -/
def squeezed (inRun : Bool) (cs : List Char) : List Char := dropTrailingBlanks (collapse inRun cs)

theorem dropTrailingBlanks_prefix (cs : List Char) : dropTrailingBlanks cs <+: cs := by
  rw [dropTrailingBlanks, ← List.reverse_suffix, List.reverse_reverse]
  exact List.dropWhile_suffix _

theorem toList_squeeze (s : String) : (squeeze s).toList = squeezed true s.toList := by
  rw [squeeze, String.toList_ofList, trimChars, dropBlanks_collapse]
  rfl

theorem squeezed_append_cons (h : isBlank c = false) (r : Bool) (a b : List Char) :
    squeezed r (a ++ c :: b) = collapse r a ++ c :: squeezed false b := by
  obtain ⟨t, ht, hb⟩ := exists_trailing (collapse false b)
  have hend : IsTrimmedEnd (collapse r a ++ c :: squeezed false b) := by
    refine isTrimmedEnd_append ?_ (List.cons_ne_nil _ _)
    by_cases hnil : squeezed false b = []
    · rw [hnil]
      rintro d ⟨⟩
      exact h
    · exact isTrimmedEnd_append (a := [c]) (isTrimmedEnd_dropTrailingBlanks _) hnil
  rw [squeezed, collapse_append_cons h, hb, ← List.cons_append, ← List.append_assoc,
    dropTrailingBlanks_append ht]
  exact dropTrailingBlanks_of_isTrimmedEnd hend

theorem squeezed_cons (h : isBlank c = false) (r : Bool) (cs : List Char) :
    squeezed r (c :: cs) = c :: squeezed false cs :=
  squeezed_append_cons h r [] cs

/-- A text that ends with no blank is squeezed on its own. -/
theorem squeezed_append (hne : w ≠ []) (hend : IsTrimmedEnd w) (r : Bool) (cs : List Char) :
    squeezed r (w ++ cs) = collapse r w ++ squeezed false cs := by
  obtain ⟨a, c, rfl⟩ := (List.eq_nil_or_concat w).resolve_left hne
  have hc : isBlank c = false := hend c (by simp)
  rw [List.concat_eq_append, List.append_assoc, List.singleton_append, squeezed_append_cons hc,
    collapse_append_cons hc, List.append_assoc]
  rfl

theorem squeezed_append_of_not_blank (h : ∀ c ∈ w, isBlank c = false) (rest : List Char) :
    squeezed false (w ++ rest) = w ++ squeezed false rest := by
  induction w with
  | nil => rfl
  | cons c w ih =>
    rw [List.cons_append, squeezed_cons (h c List.mem_cons_self),
      ih fun d hd => h d (List.mem_cons_of_mem _ hd), List.cons_append]

/-- A blank is squeezed to one space or to nothing. -/
theorem head?_squeezed_blank (h : isBlank c = true) (cs : List Char) :
    ∀ d ∈ (squeezed false (c :: cs)).head?, d = ' ' := by
  intro d hd
  obtain ⟨t, ht⟩ := dropTrailingBlanks_prefix (collapse false (c :: cs))
  have hmem : d ∈ (collapse false (c :: cs)).head? := by
    rw [squeezed, Option.mem_def] at hd
    rw [← ht, List.head?_append, hd]
    rfl
  rw [collapse_blank h] at hmem
  exact (Option.mem_some_iff.1 hmem).symm

theorem head?_squeezed (hc : isBlank c = false) (cs : List Char) :
    (squeezed false cs).head? = some c ↔ cs.head? = some c := by
  cases cs with
  | nil => rfl
  | cons d cs =>
    cases hd : isBlank d with
    | true =>
      have hdc : d ≠ c := by
        rintro rfl
        rw [hc] at hd
        cases hd
      refine ⟨fun h => ?_, fun h => absurd (Option.some.inj h) hdc⟩
      obtain rfl := head?_squeezed_blank hd cs c h
      cases hc
    | false => rw [squeezed_cons hd, List.head?_cons, List.head?_cons]

/-- Behind a word, blanks are squeezed to one space, and to none if nothing follows. -/
theorem squeezed_false_blank (h : isBlank c = true) (cs : List Char) :
    squeezed false (c :: cs) = if squeezed true cs = [] then [] else ' ' :: squeezed true cs := by
  obtain ⟨t, ht, hcs⟩ := exists_trailing (collapse true cs)
  have hsqueezed : squeezed false (c :: cs) = dropTrailingBlanks (' ' :: squeezed true cs) := by
    rw [squeezed, collapse_blank h, hcs]
    show dropTrailingBlanks ((' ' :: squeezed true cs) ++ t) = _
    exact dropTrailingBlanks_append ht
  rw [hsqueezed]
  split
  · next hnil =>
    rw [hnil]
    rfl
  · next hnil =>
    exact dropTrailingBlanks_of_isTrimmedEnd
      (isTrimmedEnd_append (a := [' ']) (isTrimmedEnd_dropTrailingBlanks _) hnil)

/-- Before a blank there is one space less or none less to be squeezed. -/
theorem squeezed_blank (h : isBlank c = true) (r : Bool) (cs : List Char) :
    squeezed r (c :: cs) = squeezed true cs ∨ squeezed r (c :: cs) = ' ' :: squeezed true cs := by
  cases r with
  | true =>
    rw [squeezed, collapse_blank h]
    exact Or.inl rfl
  | false =>
    rw [squeezed_false_blank h]
    split
    · next hnil => exact Or.inl hnil.symm
    · exact Or.inr rfl

/-- A line break is a blank, so none is left. -/
theorem newline_not_mem_squeezed (r : Bool) (cs : List Char) : '\n' ∉ squeezed r cs := by
  intro h
  have hpre : squeezed r cs <+: collapse r cs := dropTrailingBlanks_prefix (collapse r cs)
  exact absurd (eq_of_mem_collapse (hpre.subset h) (by decide)) (by decide)

/-- A text that is already squeezed has no blank at its ends and none but spaces in it. -/
theorem isTrimmed_of_squeeze (h : squeeze s = s) :
    IsTrimmedStart s.toList ∧ IsTrimmedEnd s.toList ∧
      ∀ c ∈ s.toList, isBlank c = true → c = ' ' := by
  have hs : trimChars (collapse false s.toList) = s.toList := by
    have := congrArg String.toList h
    rwa [squeeze, String.toList_ofList] at this
  obtain ⟨b, r, -, -, hr, hdrop⟩ := exists_blanks (collapse false s.toList)
  rw [trimChars, hdrop] at hs
  have hprefix : s.toList <+: r := hs ▸ dropTrailingBlanks_prefix r
  refine ⟨?_, hs ▸ isTrimmedEnd_dropTrailingBlanks r, ?_⟩
  · intro c hc
    obtain ⟨more, hmore⟩ := hprefix
    refine hr c ?_
    rw [← hmore, List.head?_append, Option.mem_def.1 hc]
    rfl
  · intro c hc
    have hmem : c ∈ r := hprefix.subset hc
    rw [← hdrop] at hmem
    exact eq_of_mem_collapse ((List.dropWhile_suffix _).subset hmem)

/-! ## Texts that are squeezed already -/

theorem length_collapse_le (r : Bool) (cs : List Char) : (collapse r cs).length ≤ cs.length := by
  induction cs generalizing r with
  | nil => simp [collapse]
  | cons c cs ih =>
    have hrest := ih true
    have hrest' := ih false
    cases hc : isBlank c with
    | true =>
      rw [collapse_blank hc, List.length_append, List.length_cons]
      cases r <;> simp <;> omega
    | false =>
      rw [collapse_cons hc, List.length_cons, List.length_cons]
      omega

theorem squeeze_eq_self_iff :
    squeeze s = s ↔ collapse true s.toList = s.toList ∧ IsTrimmedEnd s.toList := by
  rw [← String.toList_inj, toList_squeeze, squeezed]
  constructor
  · intro h
    have hend : IsTrimmedEnd s.toList := by
      rw [← h]
      exact isTrimmedEnd_dropTrailingBlanks _
    obtain ⟨t, -, ht⟩ := exists_trailing (collapse true s.toList)
    have hlen := length_collapse_le true s.toList
    rw [h] at ht
    rw [ht, List.length_append] at hlen
    obtain rfl : t = [] := List.eq_nil_of_length_eq_zero (by omega)
    exact ⟨by rw [ht, List.append_nil], hend⟩
  · rintro ⟨hsingle, hend⟩
    rw [hsingle, dropTrailingBlanks_of_isTrimmedEnd hend]

theorem collapse_of_squeeze (h : squeeze s = s) (r : Bool) : collapse r s.toList = s.toList := by
  obtain ⟨hsingle, -⟩ := squeeze_eq_self_iff.1 h
  have hstart := isTrimmedStart_collapse s.toList
  rw [hsingle] at hstart
  cases hs : s.toList with
  | nil => rfl
  | cons c cs =>
    rw [hs] at hsingle hstart
    have hc : isBlank c = false := hstart c rfl
    rw [collapse_cons hc] at hsingle ⊢
    exact hsingle

/-- Behind a text that is squeezed already, single spaces are kept. -/
theorem collapse_append_of_squeeze (hs : squeeze s = s) (hne : s ≠ "") {b : List Char}
    (hb : collapse false b = b) : collapse true (s.toList ++ b) = s.toList ++ b := by
  obtain ⟨hsingle, hend⟩ := squeeze_eq_self_iff.1 hs
  obtain ⟨a, c, hac⟩ := (List.eq_nil_or_concat s.toList).resolve_left
    (mt String.toList_eq_nil_iff.1 hne)
  rw [List.concat_eq_append] at hac
  have hc : isBlank c = false := hend c (by simp [hac])
  rw [hac] at hsingle ⊢
  rw [collapse_append_cons hc] at hsingle
  rw [List.append_assoc, List.singleton_append, collapse_append_cons hc, hb]
  rw [show collapse true a = a from List.append_cancel_right hsingle]

theorem squeeze_append {a b : String} (ha : squeeze a = a) (hane : a ≠ "") (hb : squeeze b = b)
    (hbne : b ≠ "") : squeeze (a ++ b) = a ++ b := by
  rw [squeeze_eq_self_iff, String.toList_append]
  exact ⟨collapse_append_of_squeeze ha hane (collapse_of_squeeze hb false),
    isTrimmedEnd_append (squeeze_eq_self_iff.1 hb).2 (mt String.toList_eq_nil_iff.1 hbne)⟩

theorem squeeze_append_space {a b : String} (ha : squeeze a = a) (hane : a ≠ "")
    (hb : squeeze b = b) (hbne : b ≠ "") : squeeze (a ++ " " ++ b) = a ++ " " ++ b := by
  have hspace : collapse false (' ' :: b.toList) = ' ' :: b.toList := by
    rw [collapse_blank (by decide), collapse_of_squeeze hb true]
    rfl
  have hlist : (a ++ " " ++ b).toList = a.toList ++ ' ' :: b.toList := by
    simp [String.toList_append]
  rw [squeeze_eq_self_iff, hlist]
  refine ⟨collapse_append_of_squeeze ha hane hspace, ?_⟩
  exact isTrimmedEnd_append (isTrimmedEnd_append (a := [' ']) (squeeze_eq_self_iff.1 hb).2
    (mt String.toList_eq_nil_iff.1 hbne)) (List.cons_ne_nil _ _)

/-! ## Words -/

/-- The pieces between the blanks of a text that are not empty, so its longest runs of characters
that are no blanks. -/
def wordsOf (cs : List Char) : List (List Char) := (cs.splitOnP isBlank).filter (· ≠ [])

/-- The words of a text, in order. -/
def words (s : String) : List String := (wordsOf s.toList).map String.ofList

theorem wordsOf_cons_blank (h : isBlank c = true) (cs : List Char) :
    wordsOf (c :: cs) = wordsOf cs := by
  rw [wordsOf, List.splitOnP_cons_eq_if_modifyHead, if_pos h]
  rfl

theorem not_blank_of_mem_wordsOf (h : w ∈ wordsOf cs) :
    w ≠ [] ∧ ∀ c ∈ w, isBlank c = false := by
  obtain ⟨hmem, hne⟩ := List.mem_filter.1 h
  refine ⟨by simpa using hne, ?_⟩
  clear h hne
  induction cs generalizing w with
  | nil => simp_all
  | cons c cs ih =>
    obtain ⟨first, rest, hsplit⟩ := List.exists_cons_of_ne_nil (List.splitOnP_ne_nil isBlank cs)
    rw [List.splitOnP_cons_eq_if_modifyHead] at hmem
    split at hmem
    · rcases List.mem_cons.1 hmem with rfl | hmem
      · simp
      · exact ih hmem
    · next hc =>
      rw [hsplit, List.modifyHead_cons] at hmem
      rcases List.mem_cons.1 hmem with rfl | hmem
      · refine List.forall_mem_cons.2 ⟨by simpa using hc, ?_⟩
        exact ih (hsplit ▸ List.mem_cons_self)
      · exact ih (hsplit ▸ List.mem_cons_of_mem _ hmem)

/-- Words that follow another one, with a space before each. -/
def spaced (ws : List (List Char)) : List Char := ws.flatMap (' ' :: ·)

theorem intercalate_cons (w : List Char) (ws : List (List Char)) :
    [' '].intercalate (w :: ws) = w ++ spaced ws := by
  induction ws generalizing w with
  | nil => simp [spaced]
  | cons v ws ih =>
    rw [List.intercalate_cons_cons, ih]
    simp [spaced]

theorem wordsOf_intercalate {ws : List (List Char)}
    (h : ∀ w ∈ ws, w ≠ [] ∧ ∀ c ∈ w, isBlank c = false) : wordsOf ([' '].intercalate ws) = ws := by
  induction ws with
  | nil => rfl
  | cons w ws ih =>
    obtain ⟨⟨hne, hword⟩, hws⟩ := List.forall_mem_cons.1 h
    cases ws with
    | nil => simp [wordsOf, List.splitOnP_eq_singleton hword, hne]
    | cons v ws =>
      have hrest := ih hws
      rw [wordsOf] at hrest ⊢
      rw [List.intercalate_cons_cons, List.append_assoc, List.singleton_append,
        List.splitOnP_append_cons_of_forall_mem hword ' ' (by decide),
        List.filter_cons_of_pos (by simpa using hne), hrest]

/-- What is written for a text, by its pieces between blanks. The first of them goes on with the
word before it, if there is one. -/
theorem squeezed_eq_intercalate {first : List Char} {rest : List (List Char)}
    (h : cs.splitOnP isBlank = first :: rest) :
    squeezed true cs = [' '].intercalate (wordsOf cs) ∧
      squeezed false cs = first ++ spaced (rest.filter (· ≠ [])) := by
  induction cs generalizing first rest with
  | nil =>
    cases h
    exact ⟨rfl, rfl⟩
  | cons c cs ih =>
    obtain ⟨piece, pieces, hsplit⟩ := List.exists_cons_of_ne_nil (List.splitOnP_ne_nil isBlank cs)
    obtain ⟨htrue, hfalse⟩ := ih hsplit
    have hpieces := List.splitOnP_cons_eq_if_modifyHead (p := isBlank) c cs
    cases hc : isBlank c with
    | true =>
      rw [if_pos hc, h] at hpieces
      obtain ⟨rfl, rfl⟩ := List.cons.inj hpieces
      have hblank : squeezed true (c :: cs) = squeezed true cs := by
        rw [squeezed, collapse_blank hc]
        rfl
      rw [hblank, wordsOf_cons_blank hc, squeezed_false_blank hc, htrue]
      refine ⟨rfl, ?_⟩
      show _ = spaced (wordsOf cs)
      cases hws : wordsOf cs with
      | nil => rfl
      | cons w ws =>
        have hne := (not_blank_of_mem_wordsOf (hws ▸ List.mem_cons_self : w ∈ wordsOf cs)).1
        rw [intercalate_cons, if_neg (by simp [hne])]
        rfl
    | false =>
      rw [if_neg (by simp [hc]), hsplit, List.modifyHead_cons, h] at hpieces
      obtain ⟨rfl, rfl⟩ := List.cons.inj hpieces
      have hwords : wordsOf (c :: cs) = (c :: piece) :: rest.filter (· ≠ []) := by
        rw [wordsOf, h]
        rfl
      rw [squeezed_cons hc, squeezed_cons hc, hfalse, hwords, intercalate_cons]
      exact ⟨rfl, rfl⟩

theorem squeeze_eq_intercalate (s : String) : squeeze s = " ".intercalate (words s) := by
  obtain ⟨first, rest, hsplit⟩ :=
    List.exists_cons_of_ne_nil (List.splitOnP_ne_nil isBlank s.toList)
  rw [← String.toList_inj, toList_squeeze, (squeezed_eq_intercalate hsplit).1,
    String.toList_intercalate]
  simp [words, Function.comp_def]

theorem words_squeeze (s : String) : words (squeeze s) = words s := by
  have hwords := wordsOf_intercalate fun w (h : w ∈ wordsOf s.toList) => not_blank_of_mem_wordsOf h
  rw [squeeze_eq_intercalate, words, String.toList_intercalate]
  simp only [words, List.map_map, Function.comp_def, String.toList_ofList, List.map_id']
  rw [show " ".toList = [' '] from rfl, hwords]

theorem squeeze_eq_squeeze_iff {a b : String} : squeeze a = squeeze b ↔ words a = words b := by
  constructor
  · intro h
    rw [← words_squeeze a, h, words_squeeze]
  · intro h
    rw [squeeze_eq_intercalate, h, squeeze_eq_intercalate]

end EventFlow.Text
