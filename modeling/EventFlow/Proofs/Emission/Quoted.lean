import EventFlow.Program.Expression
import EventFlow.Proofs.Emission.Rendering
import EventFlow.Proofs.Token.Inline
import EventFlow.Proofs.Token.Layout

/-! What is put in quotes is read back as it was, in any context.

    readString '\'' (quote v ++ rest)       = ok (v, length of quote v)
    readTemplate (quoteTemplate v ++ rest)  = ok (v, false, length of quoteTemplate v)

A template is escaped in one pass here; that is the same as to replace backslashes, then backticks,
then the openings of substitutions, in the whole text.

A key that looks like a name is written bare, and what looks like a name may end with a line break.
The tokenizer reads the name alone, so `k` and `k ++ "\n"` are one key to it; all other keys are
read as they are and kept apart. -/

namespace EventFlow.Emission

open Text Token

/-! ## Texts -/

/-- The place behind a text without line breaks. -/
theorem advance_flat (line : Nat) {cs : List Char} (h : '\n' ∉ cs) :
    (Cursor.start line).advance cs = ⟨cs.length, line, cs.length + 1⟩ := by
  induction cs using List.reverseRecOn with
  | nil => rfl
  | append_singleton cs c ih =>
    rw [List.mem_append, not_or, List.mem_singleton] at h
    rw [advance_append, ih h.1]
    show Cursor.step _ c = _
    rw [Cursor.step, if_neg (Ne.symm h.2), List.length_append]
    rfl

theorem pieceAt_quotedChars (v : String) (rest : List Char) :
    pieceAt '\'' (quotedChars v.toList ++ ['\''] ++ rest) =
      .ok (.lexeme (.text v), (quotedChars v.toList ++ ['\'']).length + 1) := by
  have hl := LexemeAt.text (t := rest) (Or.inl rfl) (stringBody_quotedChars v.toList)
  rw [ofUnits_toUnits, String.ofList_toList] at hl
  exact pieceAt_eq_ok_iff.2 (.lexeme rfl rfl hl)

theorem toList_quote (v : String) :
    (quote v).toList = '\'' :: (quotedChars v.toList ++ ['\'']) := String.toList_ofList

/-- A text in quotes is one piece, and what follows it is cut as it is alone. -/
theorem pieces_quote (v : String) (rest : List Char) (here : Cursor) :
    pieces here ((quote v).toList ++ rest) =
      (pieces (here.advance (quote v).toList) rest).map
        (⟨.lexeme (.text v), here, here.advance (quote v).toList⟩ :: ·) := by
  rw [toList_quote, List.cons_append]
  exact pieces_eq_map (pieceAt_quotedChars v rest)

/-- **A text in quotes is read back exactly, whatever follows it.**  Wherever it stands, it is one
piece that ends at its closing quote; alone it is one token and the end. -/
theorem quote_reads_back (v rest : String) (here : Cursor) :
    readString '\'' (quote v ++ rest).toList = .ok (v, (quote v).length) ∧
      pieces here (quote v ++ rest).toList =
        (pieces (here.advance (quote v).toList) rest.toList).map
          (⟨.lexeme (.text v), here, here.advance (quote v).toList⟩ :: ·) ∧
      tokenize (quote v) =
        .ok [⟨.text v, .start 1, (quote v).length, none⟩,
          ⟨.eof, ⟨(quote v).length, 1, (quote v).length + 1⟩, (quote v).length, none⟩] := by
  have hstop : (Cursor.start 1).advance (quote v).toList =
      ⟨(quote v).length, 1, (quote v).length + 1⟩ := by
    rw [advance_flat 1 (Inline.quote v).flat, String.length_toList]
  have halone := pieces_quote v [] (.start 1)
  have hnil : pieces ((Cursor.start 1).advance (quote v).toList) [] = .ok [] := by
    unfold pieces
    rfl
  rw [List.append_nil, hnil, hstop] at halone
  refine ⟨?_, ?_, ?_⟩
  · rw [String.toList_append, readString_quote, String.length_toList]
  · rw [String.toList_append, pieces_quote]
  · rw [tokenize, tokenizeFrom, halone, hstop]
    rfl

/-! ## Templates -/

/-- To replace a single character is to rewrite each character on its own. -/
theorem replaceAll_char {old : String} {c : Char} (hold : old.toList = [c]) (new : String)
    (cs : List Char) :
    replaceAll old new cs = cs.flatMap fun x => if x = c then new.toList else [x] := by
  have hne : old ≠ "" := by
    rintro rfl
    cases hold
  induction cs with
  | nil => rfl
  | cons x cs ih =>
    rw [List.flatMap_cons, ← ih]
    by_cases hx : x = c
    · have happend := replaceAll_append old new hne cs
      rw [hold] at happend
      rw [if_pos hx, hx]
      exact happend
    · rw [if_neg hx]
      refine replaceAll_cons ?_
      rw [hold, List.cons_prefix_cons]
      exact fun h => hx h.1.symm

/-- A text with its backslashes doubled, and then a backslash before each backtick. -/
def slashed (cs : List Char) : List Char :=
  replaceAll "`" "\\`" (replaceAll "\\" "\\\\" cs)

theorem slashed_cons (c : Char) (cs : List Char) :
    slashed (c :: cs) =
      (if c = '\\' || c = '`' then ['\\', c] else [c]) ++ slashed cs := by
  have hslash : ("\\" : String).toList = ['\\'] := rfl
  have htick : ("`" : String).toList = ['`'] := rfl
  unfold slashed
  rw [replaceAll_char hslash, replaceAll_char hslash, replaceAll_char htick, replaceAll_char htick,
    List.flatMap_cons, List.flatMap_append]
  congr 1
  by_cases hc : c = '\\'
  · subst hc
    rfl
  · by_cases ht : c = '`'
    · subst ht
      rfl
    · simp [hc, ht]

theorem head?_slashed_ne {cs : List Char} (h : cs.head? ≠ some '{') :
    (slashed cs).head? ≠ some '{' := by
  cases cs with
  | nil => exact h
  | cons c cs =>
    rw [slashed_cons]
    split
    · simp
    · exact h

/-- One pass over a text escapes it as three replacements in turn do: no replacement makes or
breaks what a later one looks for. -/
theorem templateChars_eq_replaceAll (cs : List Char) :
    templateChars cs = replaceAll r"${" r"\${" (slashed cs) := by
  have hpair : (r"${" : String).toList = ['$', '{'] := rfl
  -- a character that opens no substitution is passed over
  have hpass : ∀ (c : Char) (cs : List Char), ¬ (c = '$' ∧ cs.head? = some '{') →
      replaceAll r"${" r"\${" (c :: cs) =
        c :: replaceAll r"${" r"\${" cs := by
    intro c cs h
    refine replaceAll_cons ?_
    rw [hpair, pair_prefix_iff]
    exact h
  fun_induction templateChars cs with
  | case1 => rfl
  | case2 cs ih =>
    have hopen := replaceAll_append r"${" r"\${" (by decide) (slashed cs)
    rw [slashed_cons, slashed_cons, if_neg (by decide), if_neg (by decide), ih]
    exact hopen.symm
  | case3 c cs _ hc ih =>
    have hother : c ≠ '$' := by
      rintro rfl
      cases hc
    rw [slashed_cons, if_pos hc, ih]
    show _ = replaceAll _ _ ('\\' :: c :: slashed cs)
    rw [hpass _ _ (by simp), hpass _ _ (by simp [hother])]
  | case4 c cs hopen hc ih =>
    rw [slashed_cons, if_neg hc, ih]
    refine (hpass c (slashed cs) ?_).symm
    rintro ⟨rfl, hbrace⟩
    refine head?_slashed_ne ?_ hbrace
    intro hhead
    obtain ⟨rest, rfl⟩ := List.head?_eq_some_iff.1 hhead
    exact hopen rest rfl rfl

/-- **A template is read back exactly, whatever follows it.**  What stands between its quotes is the
text after three replacements, one after the other. -/
theorem quoteTemplate_reads_back (v rest : String) :
    (quoteTemplate v).toList = '`' :: (replaceAll r"${" r"\${"
        (replaceAll "`" "\\`" (replaceAll "\\" "\\\\" v.toList)) ++ ['`']) ∧
      readTemplate (quoteTemplate v ++ rest).toList = .ok (v, false, (quoteTemplate v).length) := by
  constructor
  · rw [quoteTemplate, String.toList_ofList, templateChars_eq_replaceAll]
    rfl
  · rw [String.toList_append, readTemplate_quoteTemplate, String.length_toList]

/-! ## Keys -/

/-- What looks like a name is a name, or a name with a line break behind it. -/
theorem isIdentifier_iff {k : String} :
    isIdentifier k = true ↔
      isFullName k = true ∨ ∃ name, isFullName name = true ∧ k = name ++ "\n" := by
  constructor
  · intro h
    unfold isIdentifier at h
    cases hk : k.toList with
    | nil =>
      rw [hk] at h
      cases h
    | cons c cs =>
      rw [hk, isIdentifierChars, Bool.and_eq_true] at h
      obtain ⟨hstart, hend⟩ := h
      have hsplit := List.takeWhile_append_dropWhile (p := isNamePart) (l := cs)
      have hparts : (cs.takeWhile isNamePart).all isNamePart = true := List.all_takeWhile
      generalize cs.takeWhile isNamePart = w at hsplit hparts
      split at hend
      · next hdrop =>
        rw [hdrop, List.append_nil] at hsplit
        left
        simp [isFullName, hk, hstart, ← hsplit, hparts]
      · next d hdrop =>
        obtain rfl : d = '\n' := by simpa using hend
        right
        refine ⟨String.ofList (c :: w), by simp [isFullName, hstart, hparts], ?_⟩
        rw [← String.toList_inj, hk, ← hsplit, hdrop]
        simp [String.toList_append]
      · cases hend
  · rintro (h | ⟨name, h, rfl⟩)
    · exact isIdentifier_of_isFullName h
    · have hdrop : ∀ w : List Char, w.all isNamePart = true →
          (w ++ ['\n']).dropWhile isNamePart = ['\n'] := by
        intro w hw
        rw [List.dropWhile_append_of_pos (List.all_eq_true.1 hw)]
        rfl
      obtain ⟨c, w, hname, hc, hw⟩ := exists_of_isFullName h
      rw [isIdentifier, String.toList_append, hname]
      show isIdentifierChars (c :: (w ++ ['\n'])) = true
      simp [isIdentifierChars, hc, hdrop w hw]

/-- The key is the name and a line break behind it. -/
structure IsBroken (k name : String) : Prop where
  full : isFullName name = true
  eq : k = name ++ "\n"

theorem IsBroken.not_isFullName {k name : String} (h : IsBroken k name) : isFullName k ≠ true := by
  intro hk
  refine Inline.newline_not_mem_of_isFullName hk ?_
  rw [h.eq, String.toList_append]
  exact List.mem_append_right _ (List.mem_singleton_self _)

theorem IsBroken.eq_of_eq {k name name' : String} (h : IsBroken k name) (h' : k = name' ++ "\n") :
    name = name' := by
  have hchars := congrArg String.toList (h.eq.symm.trans h')
  rw [String.toList_append, String.toList_append, List.append_cancel_right_eq] at hchars
  exact String.toList_inj.1 hchars

/-- The text `s` is what is read for the key `k`: the key itself, if it is not broken. -/
def ReadsAs (k s : String) : Prop := (s = k ∧ ∀ name, ¬ IsBroken k name) ∨ IsBroken k s

/-- A key in front of a colon is a name or a text, and nothing else stands there. -/
theorem exists_key (k : String) :
    ∃ l s, lexemes? (propertyKey k ++ ": null") =
        some [l, .punct ":", .identifier "null", .eof] ∧ Inline.IsKey s l ∧ ReadsAs k s := by
  have hcolon : Code ": null".toList [.punct ":", .identifier "null"] :=
    Code.of_codeIn (by decide +kernel)
  suffices h : ∃ l s, Code (propertyKey k ++ ": null").toList [l, .punct ":", .identifier "null"] ∧
      Inline.IsKey s l ∧ ReadsAs k s by
    obtain ⟨l, s, hcode, hl, hs⟩ := h
    exact ⟨l, s, lexemes?_of_code hcode, hl, hs⟩
  rw [String.toList_append]
  unfold propertyKey
  by_cases hid : isIdentifier k = true
  · rw [if_pos hid]
    rcases isIdentifier_iff.1 hid with hname | ⟨name, hname, rfl⟩
    · exact ⟨.identifier k, k, Code.name hname (by rintro _ ⟨⟩; decide) hcolon, Or.inl rfl,
        Or.inl ⟨rfl, fun name h => h.not_isFullName hname⟩⟩
    · -- the line break is blank, so the name ends before it and the colon comes next
      refine ⟨.identifier name, name, ?_, Or.inl rfl, Or.inr ⟨hname, rfl⟩⟩
      rw [String.toList_append, List.append_assoc]
      exact Code.name hname (by rintro _ ⟨⟩; decide) (Code.cons_blank (by decide) hcolon)
  · rw [if_neg hid]
    refine ⟨.text k, k, Code.text k hcolon, Or.inr rfl, Or.inl ⟨rfl, fun name h => ?_⟩⟩
    exact hid (isIdentifier_iff.2 (Or.inr ⟨name, h.full, h.eq⟩))

theorem ReadsAs.eq_self_iff {k s : String} (h : ReadsAs k s) :
    s = k ↔ ∀ name, ¬ IsBroken k name := by
  rcases h with ⟨rfl, hclean⟩ | hbroken
  · exact ⟨fun _ => hclean, fun _ => rfl⟩
  · constructor
    · rintro rfl
      exact absurd hbroken.full hbroken.not_isFullName
    · exact fun hclean => absurd hbroken (hclean s)

theorem ReadsAs.eq_of_isFullName {k s : String} (h : ReadsAs k s) (hk : isFullName k = true) :
    s = k :=
  h.eq_self_iff.2 fun _ hbroken => hbroken.not_isFullName hk

theorem ReadsAs.eq_of_isBroken {k s name : String} (h : ReadsAs k s) (hk : IsBroken k name) :
    s = name := by
  rcases h with ⟨-, hclean⟩ | hbroken
  · exact absurd hk (hclean name)
  · exact hbroken.eq_of_eq hk.eq

theorem ReadsAs.eq_iff {k s k' s' : String} (h : ReadsAs k s) (h' : ReadsAs k' s') :
    s = s' ↔ k = k' ∨ IsBroken k' k ∨ IsBroken k k' := by
  constructor
  · rintro rfl
    rcases h with ⟨rfl, -⟩ | hbroken
    · rcases h' with ⟨rfl, -⟩ | hbroken'
      · exact Or.inl rfl
      · exact Or.inr (Or.inl hbroken')
    · rcases h' with ⟨rfl, -⟩ | hbroken'
      · exact Or.inr (Or.inr hbroken)
      · exact Or.inl (hbroken.eq.trans hbroken'.eq.symm)
  · rintro (rfl | hbroken | hbroken)
    · rcases h with ⟨rfl, hclean⟩ | hbroken
      · exact (h'.eq_self_iff.2 hclean).symm
      · exact (h'.eq_of_isBroken hbroken).symm
    · rw [h.eq_of_isFullName hbroken.full, h'.eq_of_isBroken hbroken]
    · rw [h.eq_of_isBroken hbroken, h'.eq_of_isFullName hbroken.full]

/-- The key that is read where `k` is written as a key. -/
def keyRead? (k : String) : Option String :=
  (lexemes? (propertyKey k ++ ": null")).bind fun ls => ls.head?.bind Program.key?

theorem keyRead?_eq {k s : String} {l : Lexeme} {ls : List Lexeme}
    (h : lexemes? (propertyKey k ++ ": null") = some (l :: ls)) (hl : Inline.IsKey s l) :
    keyRead? k = some s := by
  rw [keyRead?, h]
  rcases hl with rfl | rfl <;> rfl

/-- **A key is read back as it was written, unless it is a name with a line break behind it.**  Only
such a key and its name are one key to the reader. -/
theorem propertyKey_reads_back_iff (k : String) :
    (∃ l s, lexemes? (propertyKey k ++ ": null") =
        some [l, .punct ":", .identifier "null", .eof] ∧ Inline.IsKey s l ∧
        (s = k ↔ ∀ name, ¬ IsBroken k name)) ∧
      ∀ k', keyRead? k = keyRead? k' ↔ k = k' ∨ IsBroken k' k ∨ IsBroken k k' := by
  obtain ⟨l, s, hls, hl, hs⟩ := exists_key k
  refine ⟨⟨l, s, hls, hl, hs.eq_self_iff⟩, fun k' => ?_⟩
  obtain ⟨l', s', hls', hl', hs'⟩ := exists_key k'
  rw [keyRead?_eq hls hl, keyRead?_eq hls' hl', Option.some.injEq]
  exact hs.eq_iff hs'

/-- Two keys of one object that are read as one. -/
theorem propertyKey_break :
    propertyKey "id\n" = "id\n" ∧
      lexemes? (propertyKey "id\n" ++ ": null") =
        some [.identifier "id", .punct ":", .identifier "null", .eof] ∧
      keyRead? "id\n" = keyRead? "id" := by
  decide +kernel

end EventFlow.Emission
