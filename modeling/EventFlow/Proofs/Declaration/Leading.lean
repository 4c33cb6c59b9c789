import EventFlow.Proofs.Declaration.Agreement
import EventFlow.Proofs.Emission.Declarations
import EventFlow.Proofs.Token.Break

/-! The comment above a declaration.

The search goes upward from a line that ends with the closing mark of a comment to a line that
begins with the opening mark. It looks for closing marks on the lines between the two, but not in
the rest of the first line and not before the end of the last one:

    /** a */ code        code */ more */

Where there is none either, what it finds is one whole comment, and the lines of it can be taken out
without any change to the code. -/

namespace EventFlow.Declaration

open Extraction Text Token
open Emission (blankLines_append map_zipIdx_of_mem map_zipIdx_of_not_mem)

/-! ## The search -/

theorem opening?_eq_some {taken above block : List String} (h : opening? taken above = some block) :
    ∃ first passed rest, above = passed.reverse ++ first :: rest ∧
      block = first :: (passed ++ taken) ∧
      ['/', '*', '*'] <+: dropBlanks first.toList ∧
      ∀ l ∈ (if taken.isEmpty then passed.dropLast else passed), ¬ ['*', '/'] <:+: l.toList := by
  induction above generalizing taken with
  | nil => cases h
  | cons line above ih =>
    rw [opening?] at h
    split at h
    · next hstart =>
      cases h
      refine ⟨line, [], above, rfl, rfl, startsWith_iff.1 hstart, ?_⟩
      split <;> simp
    split at h
    · cases h
    next hno =>
    split at h
    · cases h
    obtain ⟨first, passed, rest, rfl, rfl, hfirst, hpassed⟩ := ih h
    refine ⟨first, passed ++ [line], rest, by simp, by simp, hfirst, ?_⟩
    rw [List.isEmpty_cons, if_neg (by decide)] at hpassed
    cases taken with
    | nil => rwa [List.isEmpty_nil, if_pos rfl, List.dropLast_concat]
    | cons t taken =>
      rw [List.isEmpty_cons, if_neg (by decide)]
      intro l hl
      rcases List.mem_append.1 hl with hl | hl
      · exact hpassed l hl
      · obtain rfl := List.mem_singleton.1 hl
        intro hmark
        refine hno ?_
        rw [List.isEmpty_cons, Bool.not_false, Bool.true_and]
        exact contains_iff.2 hmark

/-- The lines of a comment above line `before.length + block.length`. -/
structure IsBlock (block : List String) : Prop where
  first : ∃ l ∈ block.head?, ['/', '*', '*'] <+: dropBlanks l.toList
  last : ∃ l ∈ block.getLast?, ['*', '/'] <:+ dropTrailingBlanks l.toList
  between : ∀ l ∈ block.tail.dropLast, ¬ ['*', '/'] <:+: l.toList

theorem exists_isBlock {lines : List String} {i : Nat} {doc : LeadingDoc} (hi : i ≤ lines.length)
    (h : leadingDoc? lines i = some doc) :
    ∃ before block after, lines = before ++ (block ++ after) ∧ IsBlock block ∧
      doc = ⟨before.length, before.length + block.length - 1, trim (unlines block)⟩ := by
  unfold leadingDoc? at h
  dsimp only at h
  split at h
  · cases h
  next last above habove =>
  split at h
  · next hlast =>
    obtain ⟨block, hblock, rfl⟩ := Option.map_eq_some_iff.1 h
    obtain ⟨first, passed, rest, hsplit, rfl, hfirst, hbetween⟩ := opening?_eq_some hblock
    rw [List.append_nil] at *
    have htake : lines.take i = rest.reverse ++ first :: passed := by
      rw [← List.reverse_inj, hsplit]
      simp
    have hlen : rest.length + (passed.length + 1) = i := by
      have := congrArg List.length htake
      simp only [List.length_take, List.length_append, List.length_reverse,
        List.length_cons] at this
      omega
    have hend : (first :: passed).getLast? = some last := by
      have := congrArg List.getLast? htake
      rw [← List.head?_reverse, habove, List.getLast?_append_of_ne_nil _ (by simp)] at this
      exact this.symm
    refine ⟨rest.reverse, first :: passed, lines.drop i, ?_, ?_, ?_⟩
    · rw [← List.append_assoc, ← htake, List.take_append_drop]
    · exact ⟨⟨first, rfl, hfirst⟩, ⟨last, hend, endsWith_iff.1 hlast⟩, hbetween⟩
    · simp only [List.length_reverse, List.length_cons, LeadingDoc.mk.injEq, and_true]
      omega
  · cases h

/-! ## The text of the block -/

/-- Lines with the line breaks behind them. -/
def ended (ls : List String) : List Char := ls.flatMap fun l => l.toList ++ ['\n']

/-- Lines with the line breaks before them. -/
def begun (ls : List String) : List Char := ls.flatMap fun l => '\n' :: l.toList

theorem toList_unlines_append (before : List String) {rest : List String} (h : rest ≠ []) :
    (unlines (before ++ rest)).toList = ended before ++ (unlines rest).toList := by
  induction before with
  | nil => rfl
  | cons l before ih =>
    rw [List.cons_append, unlines, joinWith_cons (by simp [h]), String.toList_append,
      String.toList_append, show joinWith "\n" (before ++ rest) = unlines (before ++ rest)
      from rfl, ih, ended, ended, List.flatMap_cons]
    simp

theorem toList_unlines_append_begun {block : List String} (h : block ≠ []) (after : List String) :
    (unlines (block ++ after)).toList = (unlines block).toList ++ begun after := by
  induction after generalizing block with
  | nil => simp [begun]
  | cons l after ih =>
    rw [show block ++ l :: after = (block ++ [l]) ++ after by simp, ih (by simp), unlines,
      joinWith_append h (by simp), begun, begun, List.flatMap_cons]
    simp [unlines, joinWith]

theorem pair_infix_ended {x y : Char} (hx : x ≠ '\n') (hy : y ≠ '\n') {ls : List String}
    (cs : List Char) :
    [x, y] <:+: ended ls ++ cs ↔ (∃ l ∈ ls, [x, y] <:+: l.toList) ∨ [x, y] <:+: cs := by
  induction ls with
  | nil => simp [ended]
  | cons l ls ih =>
    rw [show ended (l :: ls) ++ cs = l.toList ++ '\n' :: (ended ls ++ cs) by simp [ended],
      pair_infix_append, List.infix_cons_iff, pair_prefix_iff, ih]
    simp [hx.symm, hy.symm, or_assoc]

theorem exists_body {b u y t : List Char} (hb : b.all isBlank = true)
    (h : b ++ '/' :: '*' :: '*' :: u = y ++ '*' :: '/' :: t) :
    ∃ body, y = b ++ '/' :: '*' :: body ∧ '*' :: u = body ++ '*' :: '/' :: t := by
  rcases List.append_eq_append_iff.1 h with ⟨z, rfl, hz⟩ | ⟨z, rfl, hz⟩
  · match z, hz with
    | [], hz => cases hz
    | [a], hz => cases hz
    | a :: c :: body, hz =>
      rw [List.cons_append, List.cons_append] at hz
      obtain ⟨ha, hz⟩ := List.cons.inj hz
      obtain ⟨hc, hz⟩ := List.cons.inj hz
      exact ⟨body, by rw [← ha, ← hc], hz⟩
  · cases z with
    | nil => cases hz
    | cons c z =>
      obtain ⟨rfl, -⟩ := List.cons.inj hz
      simp only [List.all_append, List.all_cons, Bool.and_eq_true] at hb
      exact absurd hb.2.1 (by decide)

/-- The text of a block is a comment between blanks, and a closing mark before the end of it stands
in a line before the last one or before the end of the last line. -/
theorem IsBlock.exists_comment {block : List String} (h : IsBlock block) :
    ∃ b body t, (unlines block).toList = b ++ ('/' :: '*' :: (body ++ ['*', '/']) ++ t) ∧
      b.all isBlank = true ∧ t.all isBlank = true ∧
      (['*', '/'] <:+: '/' :: '*' :: (body ++ ['*']) ↔
        (∃ l ∈ block.dropLast, ['*', '/'] <:+: l.toList) ∨
        ∃ l ∈ block.getLast?, ['*', '/'] <:+: (dropTrailingBlanks l.toList).dropLast) := by
  obtain ⟨⟨first, hfirst, hopen⟩, ⟨last, hlast, hclose⟩, -⟩ := h
  obtain ⟨b, r, hline, hb, -, hr⟩ := exists_blanks first.toList
  obtain ⟨t, ht, hend⟩ := exists_trailing last.toList
  obtain ⟨u, hu⟩ := hr ▸ hopen
  obtain ⟨x, hx⟩ := hclose
  obtain ⟨rest, rfl⟩ := List.head?_eq_some_iff.1 hfirst
  obtain ⟨init, hinit⟩ := List.getLast?_eq_some_iff.1 hlast
  have hleft : (unlines (first :: rest)).toList =
      b ++ '/' :: '*' :: '*' :: (u ++ begun rest) := by
    rw [show first :: rest = [first] ++ rest from rfl, toList_unlines_append_begun (by simp)]
    show first.toList ++ _ = _
    rw [hline, ← hu]
    simp
  have hright : (unlines (first :: rest)).toList = ended init ++ x ++ '*' :: '/' :: t := by
    rw [hinit, toList_unlines_append init (by simp)]
    show _ ++ last.toList = _
    rw [hend, ← hx]
    simp
  obtain ⟨body, hbody, htext⟩ := exists_body hb (hleft.symm.trans hright)
  refine ⟨b, body, t, ?_, hb, ht, ?_⟩
  · rw [hleft, htext]
    simp
  · have hdrop : (dropTrailingBlanks last.toList).dropLast = x ++ ['*'] := by
      rw [← hx, List.dropLast_append_of_ne_nil (by simp)]
      rfl
    have hblank : ['*', '/'] <:+: '/' :: '*' :: (body ++ ['*']) ↔
        ['*', '/'] <:+: b ++ '/' :: '*' :: (body ++ ['*']) := by
      have hno : '*' ∉ b := fun hmem => absurd (List.all_eq_true.1 hb _ hmem) (by decide)
      rw [pair_infix_append, or_iff_right (not_infix_pair hno)]
      exact (or_iff_left fun h => hno (List.mem_of_getLast? h.1)).symm
    rw [hblank, show b ++ '/' :: '*' :: (body ++ ['*']) = ended init ++ (x ++ ['*']) by
      rw [← List.append_assoc, hbody]
      simp, pair_infix_ended (by decide) (by decide), hinit, List.dropLast_concat]
    simp [hdrop]

/-! ## Whole comments -/

/-- The text has no lexeme, and the closing mark of a comment stands at its end and nowhere else. -/
structure IsWhole (raw : String) : Prop where
  silent : lexemes? raw = some [.eof]
  closed : ['*', '/'] <:+ raw.toList
  once : ¬ ['*', '/'] <:+: raw.toList.dropLast

theorem IsBlock.isWhole_iff {block : List String} (h : IsBlock block) :
    IsWhole (trim (unlines block)) ↔
      (∀ l ∈ block.dropLast, ¬ ['*', '/'] <:+: l.toList) ∧
        ∀ l ∈ block.getLast?, ¬ ['*', '/'] <:+: (dropTrailingBlanks l.toList).dropLast := by
  obtain ⟨b, body, t, htext, hb, ht, hmarks⟩ := h.exists_comment
  have hraw : (trim (unlines block)).toList = '/' :: '*' :: (body ++ ['*', '/']) := by
    rw [trim, String.toList_ofList, htext]
    refine trimChars_eq hb ht (by rintro c ⟨⟩; rfl) ?_
    exact isTrimmedEnd_append (a := '/' :: '*' :: body) (by decide) (by simp)
  have hdrop : ('/' :: '*' :: (body ++ ['*', '/'])).dropLast = '/' :: '*' :: (body ++ ['*']) := by
    rw [show '/' :: '*' :: (body ++ ['*', '/']) = ('/' :: '*' :: (body ++ ['*'])) ++ ['/'] by simp,
      List.dropLast_concat]
  have hiff : ¬ ['*', '/'] <:+: '/' :: '*' :: (body ++ ['*']) ↔
      (∀ l ∈ block.dropLast, ¬ ['*', '/'] <:+: l.toList) ∧
        ∀ l ∈ block.getLast?, ¬ ['*', '/'] <:+: (dropTrailingBlanks l.toList).dropLast := by
    rw [hmarks, not_or]
    simp only [not_exists, not_and]
  constructor
  · intro hwhole
    have honce := hwhole.once
    rwa [hraw, hdrop, hiff] at honce
  · intro hlines
    have honce := hiff.2 hlines
    refine ⟨?_, ?_, ?_⟩
    · refine Gap.lexemes? ?_
      rw [hraw]
      exact Gap.comment fun hi => honce (List.infix_cons (List.infix_cons hi))
    · rw [hraw]
      exact ⟨'/' :: '*' :: body, by simp⟩
    · rwa [hraw, hdrop]

/-- The lines of a whole comment are a gap in the code. -/
theorem IsBlock.gap {block : List String} (h : IsBlock block)
    (hwhole : IsWhole (trim (unlines block))) : Gap (unlines block).toList := by
  obtain ⟨b, body, t, htext, hb, ht, hmarks⟩ := h.exists_comment
  have honce : ¬ ['*', '/'] <:+: body ++ ['*'] := by
    obtain ⟨hinit, hlast⟩ := h.isWhole_iff.1 hwhole
    intro hi
    rcases hmarks.1 (List.infix_cons (List.infix_cons hi)) with ⟨l, hl, hmark⟩ | ⟨l, hl, hmark⟩
    · exact hinit l hl hmark
    · exact hlast l hl hmark
  rw [htext]
  exact (Gap.blanks hb).append ((Gap.comment honce).append (Gap.blanks ht))

/-! ## Blanked lines -/

theorem endsLine_ended (ls : List String) : EndsLine (ended ls) := by
  intro c hc
  cases ls using List.reverseRecOn with
  | nil => cases hc
  | append_singleton ls l =>
    rw [ended, List.flatMap_append, List.flatMap_singleton, ← List.append_assoc,
      List.getLast?_concat] at hc
    exact (Option.some.inj hc).symm

theorem length_ended (ls more : List String) :
    (ended ls).length = lineStart (ls ++ more) ls.length := by
  rw [lineStart, List.take_left, ended, List.length_flatMap]
  simp only [List.length_append, String.length_toList, List.length_singleton]

theorem gap_unlines_replicate (n : Nat) : Gap (unlines (List.replicate n "")).toList := by
  refine Gap.blanks ?_
  cases n with
  | zero => rfl
  | succ n =>
    have hblank : isBlank '\n' = true := rfl
    rw [List.replicate_succ', toList_unlines_append _ (by simp), ended]
    simp [unlines, joinWith, hblank]

/-- A gap in place of another gap, at the start of a line, changes nothing in the code. -/
theorem lexemes?_of_gap {a g g' c : List Char} {placed : List Placed} (ha : EndsLine a) (hg : Gap g)
    (hg' : Gap g') (h : pieces (.start 1) (a ++ (g ++ c)) = .ok placed)
    (hcovers : ∀ x ∈ placed, ¬ Covers x a.length) :
    ∃ placed', pieces (.start 1) (a ++ (g' ++ c)) = .ok placed' ∧
      lexemesOf placed' = lexemesOf placed := by
  have hstart : (Cursor.start 1).offset + a.length = a.length := Nat.zero_add _
  have hover : ∀ x ∈ placed, x.start.offset < (Cursor.start 1).offset + a.length →
      x.stop.offset ≤ (Cursor.start 1).offset + a.length := by
    rw [hstart]
    intro x hx hlt
    by_contra hle
    exact hcovers x hx ⟨hlt, by omega⟩
  obtain ⟨pa, pb, rfl, hpa, hpb⟩ := pieces_of_append ha h hover
  obtain ⟨gaps, hgaps, hpieces⟩ := hg ((Cursor.start 1).advance a) c
  obtain ⟨gaps', hgaps', hpieces'⟩ := hg' ((Cursor.start 1).advance a) c
  rw [hpieces] at hpb
  cases hpc : pieces (((Cursor.start 1).advance a).advance g) c with
  | error e =>
    rw [hpc] at hpb
    cases hpb
  | ok pc =>
    rw [hpc] at hpb
    obtain rfl : gaps ++ pc = pb := Except.ok.inj hpb
    obtain ⟨pc', hpc', hsame⟩ := exists_pieces_at hpc (((Cursor.start 1).advance a).advance g')
    rw [hpc'] at hpieces'
    refine ⟨_, pieces_append_of_endsLine _ _ _ _ _ ha hpa hpieces', ?_⟩
    simp only [lexemesOf_append, hgaps, hgaps', hsame]

theorem blankLines_block (before block after : List String) :
    blankLines ((List.range block.length).map (before.length + ·))
        (before ++ (block ++ after)) =
      before ++ (List.replicate block.length "" ++ after) := by
  have hmem : ∀ i, i ∈ (List.range block.length).map (before.length + ·) ↔
      before.length ≤ i ∧ i < before.length + block.length := by
    intro i
    simp only [List.mem_map, List.mem_range]
    constructor
    · rintro ⟨k, hk, rfl⟩
      omega
    · rintro ⟨hle, hlt⟩
      exact ⟨i - before.length, by omega, by omega⟩
  rw [blankLines_append, List.zipIdx_append, List.map_append, blankLines,
    map_zipIdx_of_not_mem, map_zipIdx_of_mem, map_zipIdx_of_not_mem]
  · intro i hle hlt
    rw [hmem]
    omega
  · intro i hle hlt
    exact Or.inr ((hmem i).2 ⟨hle, hlt⟩)
  · intro i hle hlt
    rw [hmem]
    omega

/-! ## The comment above a line -/

/-- The comment above a line is one whole comment exactly if no closing mark stands in the rest of
its first line, where it has more lines, and none before the end of its last line. If so, and if it
begins in code, then without its lines the code is the same. -/
theorem leadingDoc?_isWhole_iff {lines : List String} {i : Nat} {doc : LeadingDoc}
    (hi : i ≤ lines.length) (h : leadingDoc? lines i = some doc) :
    (IsWhole doc.raw ↔
      (doc.start < doc.stop → ∀ l ∈ lines[doc.start]?, ¬ ['*', '/'] <:+: l.toList) ∧
        ∀ l ∈ lines[doc.stop]?, ¬ ['*', '/'] <:+: (dropTrailingBlanks l.toList).dropLast) ∧
      (IsWhole doc.raw → ∀ placed, pieces (.start 1) (unlines lines).toList = .ok placed →
        (∀ x ∈ placed, ¬ Covers x (lineStart lines doc.start)) →
        lexemes? (unlines (blankLines (docLinesOf (some doc)) lines)) =
          lexemes? (unlines lines)) := by
  obtain ⟨before, block, after, rfl, hblock, rfl⟩ := exists_isBlock hi h
  obtain ⟨first, hfirst, -⟩ := hblock.first
  obtain ⟨rest, rfl⟩ := List.head?_eq_some_iff.1 hfirst
  have hstart : (before ++ (first :: rest ++ after))[before.length]? = some first := by simp
  have hstop : (before ++ (first :: rest ++ after))[before.length + (first :: rest).length - 1]? =
      (first :: rest).getLast? := by
    rw [List.getLast?_eq_getElem?, List.getElem?_append_right (by simp),
      List.getElem?_append_left (by simp)]
    congr 1
    simp only [List.length_cons]
    omega
  constructor
  · dsimp only
    rw [hblock.isWhole_iff, hstart, hstop]
    refine and_congr_left fun _ => ?_
    have hbetween := hblock.between
    cases rest with
    | nil => simp
    | cons second rest =>
      have hlt : before.length < before.length + (first :: second :: rest).length - 1 := by
        simp only [List.length_cons]
        omega
      simp only [List.dropLast_cons_cons, List.mem_cons, forall_eq_or_imp, hlt, forall_const,
        Option.mem_def, Option.some.injEq, forall_eq']
      exact and_iff_left hbetween
  · dsimp only
    intro hwhole placed hplaced hcovers
    have hne : first :: rest ++ after ≠ [] := by simp
    have hlines : docLinesOf (some ⟨before.length, before.length + (first :: rest).length - 1,
        trim (unlines (first :: rest))⟩) =
        (List.range (first :: rest).length).map (before.length + ·) := by
      rw [docLinesOf]
      congr 2
      simp only [List.length_cons]
      omega
    rw [hlines, blankLines_block]
    rw [toList_unlines_append before hne, toList_unlines_append_begun (by simp)] at hplaced
    rw [← length_ended] at hcovers
    obtain ⟨placed', hplaced', hsame⟩ := lexemes?_of_gap (endsLine_ended before)
      (hblock.gap hwhole) (gap_unlines_replicate (first :: rest).length) hplaced hcovers
    rw [← toList_unlines_append_begun (by simp), ← toList_unlines_append before hne] at hplaced
    rw [← toList_unlines_append_begun (by simp),
      ← toList_unlines_append before (by simp)] at hplaced'
    rw [lexemes?_eq hplaced, lexemes?_eq hplaced', hsame]

/-- A statement, a comment over two lines and a declaration. -/
def documented : List String :=
  ["flow('F', () => {});", "  /** a", "   * b */  ", "type A = string;"]

theorem leadingDoc?_isWhole_iff_documented :
    scan documented = [⟨"A", 3, 3, .closed⟩] ∧
      leadingDoc? documented 3 = some ⟨1, 2, "/** a\n   * b */"⟩ ∧ IsWhole "/** a\n   * b */" ∧
      lexemes? (unlines (blankLines [1, 2] documented)) =
        lexemes? (unlines documented) := by
  have h : leadingDoc? documented 3 = some ⟨1, 2, "/** a\n   * b */"⟩ := by decide +kernel
  obtain ⟨hiff, hsame⟩ := leadingDoc?_isWhole_iff (by decide) h
  have hwhole := hiff.2 (by decide +kernel)
  have hcheck : (pieces (.start 1) (unlines documented).toList).toOption.map (·.all fun x =>
      !(decide (x.start.offset < lineStart documented 1 ∧
        lineStart documented 1 < x.stop.offset))) = some true := by decide +kernel
  obtain ⟨placed, hplaced, hall⟩ := Option.map_eq_some_iff.1 hcheck
  refine ⟨by decide +kernel, h, hwhole, hsame hwhole placed (toOption_eq_some hplaced) ?_⟩
  intro x hx hcovers
  have hno := List.all_eq_true.1 hall x hx
  rw [Bool.not_eq_true', decide_eq_false_iff_not] at hno
  exact hno hcovers

/-- A statement with a comment before it and a comment behind it. -/
def commented : String := "/** a */ flow('F', () => {}); /* b */"

/-- Such a line is taken for the comment above a declaration. -/
theorem leadingDoc?_commented :
    scan [commented, "type A = string;"] = [⟨"A", 1, 1, .closed⟩] ∧
      leadingDoc? [commented, "type A = string;"] 1 = some ⟨0, 0, commented⟩ ∧
      ¬ IsWhole commented ∧
      lexemes? (unlines (blankLines [0] [commented, "type A = string;"])) ≠
        lexemes? (unlines [commented, "type A = string;"]) := by
  refine ⟨by decide +kernel, by decide +kernel, ?_, by decide +kernel⟩
  intro h
  exact absurd h.silent (by decide +kernel)

end EventFlow.Declaration
