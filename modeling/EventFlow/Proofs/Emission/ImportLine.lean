import EventFlow.Proofs.Emission.Imports
import EventFlow.Proofs.Emission.Snippet
import EventFlow.Proofs.Program.LineBreak
import EventFlow.Proofs.Token.Pieces

/-! When a line that imports some names is read back.

The names stand in the braces as they are, each of them once and in order, and they may be any
names, even those that have a meaning in imports.  The module stands between the quotes as it is:

    importLine? "import type" ["type", "as", "as"] MODULE  =
      some "import type { as, type } from 'MODULE';"

A quote or a backslash in the module is not taken for a part of it, and a line break is refused.  So
the line is read back if and only if the module has none of these: each escape is longer than what
it stands for, and the text between the quotes is no longer than the module. -/

namespace EventFlow.Emission

open Program Text Token

/-! ## One statement as a whole program -/

theorem docOf_none {us : Stream} (h : ∀ u ∈ us, u.token.doc = none) : Program.docOf us = none := by
  cases us with
  | nil => rfl
  | cons u us => exact h u List.mem_cons_self

/-- A line that is a statement at every depth is a program of this statement. -/
theorem parses_of_readsStatement {t : String} {ls : List Lexeme}
    {P : Option String → Statement → Prop} (ht : Inline t ls) (h : ∀ d, ReadsStatement d ls P) :
    ∃ s, Parses t [s] ∧ P none s := by
  obtain ⟨tokens, us, last, htokens, hstream, hlexemes, hdoc, hlast⟩ := exists_stream ht
  have hreads := h tokens.length
  have hone : ∀ rest, ∃ s, statement (grammar t.toList tokens.length) (us ++ rest) =
      .ok (some s, rest) ∧ P none s := fun rest => by
    obtain ⟨s, hs, hP⟩ := hreads.reads t.toList us rest hlexemes
    exact ⟨s, hs, docOf_none hdoc ▸ hP⟩
  have hlength : 1 < tokens.length := by
    have hne : us ≠ [] := by
      rintro rfl
      obtain ⟨l, hl, -⟩ := hreads.starts
      rw [← hlexemes] at hl
      cases hl
    have hpos := List.length_pos_iff.2 hne
    rw [← length_stream, hstream, List.length_append, List.length_singleton]
    omega
  have hlist : List.Forall₂ (fun us (_ : Unit) =>
      (∃ l ∈ us.lexemes.head?, isStart l = true) ∧
      ∀ rest, ∃ s, statement (grammar t.toList tokens.length) (us ++ rest) = .ok (some s, rest) ∧
        P none s) [us] [()] := .cons ⟨hlexemes ▸ hreads.starts, hone⟩ .nil
  obtain ⟨ss, hss, hall⟩ :=
    statements_reads (P := fun _ s => P none s) hlist hlast hlength
  cases hall with
  | @cons s _ _ _ hs hnil =>
    cases hnil
    refine ⟨s, ⟨tokens, htokens, ?_⟩, hs⟩
    rw [List.flatten_singleton, ← hstream] at hss
    exact hss

/-! ## The module that is read -/

/-- What begins with a quote begins with a text. -/
theorem exists_text {here : Cursor} {rest : List Char} {placed : List Placed}
    (h : pieces here ('\'' :: rest) = .ok placed) :
    ∃ w t units ls, rest = w ++ t ∧ StringBody '\'' w units ∧
      lexemesOf placed = .text (String.ofList (ofUnits units)) :: ls := by
  cases pieces_eq_ok_iff.1 h with
  | @cons _ _ _ piece n more hpiece =>
    cases pieceAt_eq_ok_iff.1 hpiece with
    | blank hc => exact absurd hc (by decide)
    | lexeme _ _ hl =>
      cases hl with
      | text _ hw => exact ⟨_, _, _, lexemesOf more, rfl, hw, rfl⟩
      | template hc => exact absurd hc (by decide)
      | number hc | name hc | punct hc => exact absurd hc (by decide)

variable {typeOnly : Bool} {sorted : List String} {module : String}

/-- Behind its head the line has a text, which is the module only if the module needs no escapes. -/
theorem exists_module (h : ∀ n ∈ sorted, isFullName n = true) {tokens : List Token}
    (ht : tokenize (importText typeOnly sorted module) = .ok tokens) :
    ∃ v ls, tokens.map (·.lexeme) = importHeadLexemes typeOnly sorted ++ .text v :: ls ∧
      (v = module → isVerbatim module = true) := by
  have hsource : (importText typeOnly sorted module).toList =
      (importHead typeOnly sorted).toList ++ '\'' :: (module.toList ++ '\'' :: [';']) := by
    simp [importText_eq, String.toList_append]
  obtain ⟨front, hfront, hcode⟩ := (inline_importHead typeOnly h).code (.start 1)
  have hclosed : closed (importHead typeOnly sorted) = true := closed_append (by decide)
  have hcut := pieces_append_eq_map (.start 1) _ ('\'' :: (module.toList ++ '\'' :: [';'])) front
    (fun p hp => isPlain_of_codeOf hcode _ (List.mem_map_of_mem hp))
    (Or.inr (Or.inr (closed_iff.1 hclosed))) hfront
  obtain ⟨placed, hplaced, htokens⟩ := bind_eq_ok.1 ht
  cases htokens
  rw [hsource, hcut] at hplaced
  cases hback : pieces _ ('\'' :: (module.toList ++ '\'' :: [';'])) with
  | error e =>
    rw [hback] at hplaced
    cases hplaced
  | ok back =>
    rw [hback] at hplaced
    cases hplaced
    obtain ⟨w, t, units, ls, hrest, hw, hls⟩ := exists_text hback
    refine ⟨String.ofList (ofUnits units), ls ++ [.eof], ?_, fun hmodule => ?_⟩
    · have hall : lexemesOf (front ++ back) = lexemesOf front ++ lexemesOf back :=
        List.filterMap_append
      rw [map_lexeme_ofPieces, hall, lexemesOf_of_codeOf hcode, hls]
      simp
    · refine isVerbatim_of_stringBody hw hrest.symm (by decide) ?_
      rw [← hmodule, String.toList_ofList]

/-- A program of one import has the module that its tokens have. -/
theorem module_eq_of_parses {source v : String} {tokens : List Token} {ls : List Lexeme}
    (ht : tokenize source = .ok tokens)
    (htokens : tokens.map (·.lexeme) = importHeadLexemes typeOnly sorted ++ .text v :: ls)
    {line : Nat} {content : Import} {doc : Option String}
    (h : Parses source [.imports line content doc]) : content.module = v := by
  obtain ⟨tokens', ht', hparse⟩ := h
  obtain rfl : tokens = tokens' := Except.ok.inj (ht.symm.trans ht')
  have hstream : (stream tokens).lexemes = .identifier "import" ::
      ((if typeOnly then [.identifier "type"] else []) ++ (namedLexemes sorted v ++ ls)) := by
    have hmap : (stream tokens).lexemes = tokens.map (·.lexeme) := by
      rw [← congrArg (List.map (·.lexeme)) (map_token_stream tokens), List.map_map]
      rfl
    rw [hmap, htokens]
    simp [importHeadLexemes, namedLexemes]
  obtain ⟨t, us, hus, hlexeme, hrest⟩ := lexemes_eq_cons hstream
  obtain ⟨vk, vb, rfl, hvk, hvb⟩ := lexemes_eq_append hrest
  obtain ⟨va, rest, rfl, hva, -⟩ := lexemes_eq_append hvb
  obtain ⟨ss, hcontent, -⟩ := importContent_reads typeOnly sorted v rest hvk hva
  have hopen := isPunct_import typeOnly sorted v rest hvk hva
  have hlength : tokens.length = (vk ++ (va ++ rest)).length + 1 := by
    rw [← length_stream, hus, List.length_cons]
  rw [parse, parseWithin, hus, hlength, statements,
    if_neg (by simp [isEof_cons, hlexeme]),
    statement_import hlexeme hopen hcontent] at hparse
  obtain ⟨⟨first, behind⟩, hfirst, hparse⟩ := bind_eq_ok.1 hparse
  cases hend : endStatement rest with
  | error e =>
    rw [hend] at hfirst
    cases hfirst
  | ok r =>
    rw [hend] at hfirst
    cases hfirst
    obtain ⟨more, -, hparse⟩ := bind_eq_ok.1 hparse
    cases hparse
    rfl

/-! ## Lines -/

/-- **An import line is read back if and only if its module needs no escapes.**  It is then a
program of one import, of the distinct names in order, whatever names they are. -/
theorem importLine_reads_back_iff (typeOnly : Bool) {names : List String} (hne : names ≠ [])
    (hnames : ∀ n ∈ names, isFullName n = true) (module : String) :
    ∃ line sorted,
      importLine? (if typeOnly then "import type" else "import") names module = some line ∧
        sorted.Pairwise (· < ·) ∧ (∀ n, n ∈ sorted ↔ n ∈ names) ∧
        ((∃ place specifiers,
            Parses line [.imports place ⟨module, specifiers, none, none, typeOnly⟩ none] ∧
              List.Forall₂ (IsSpecifier typeOnly) specifiers sorted) ↔
          isVerbatim module = true) := by
  obtain ⟨n, hn⟩ := List.exists_mem_of_ne_nil names hne
  have hsome := importLine?_eq typeOnly names module
  rw [if_neg (List.ne_nil_of_mem (mem_ascendingSet.2 hn))] at hsome
  have hfull : ∀ n ∈ ascendingSet names, isFullName n = true := fun n hn =>
    hnames n (mem_ascendingSet.1 hn)
  refine ⟨importText typeOnly (ascendingSet names) module, ascendingSet names,
    Option.toList_eq_singleton_iff.1 hsome, pairwise_ascendingSet names,
    fun _ => mem_ascendingSet, ?_, fun hmodule => ?_⟩
  · rintro ⟨place, specifiers, hparses, -⟩
    obtain ⟨tokens, ht, -⟩ := id hparses
    obtain ⟨v, ls, htokens, hverbatim⟩ := exists_module hfull ht
    exact hverbatim (module_eq_of_parses ht htokens hparses).symm
  · obtain ⟨s, hs, place, specifiers, rfl, hP⟩ := parses_of_readsStatement
      (inline_importText typeOnly hfull hmodule)
      fun d => ReadsStatement.imports d typeOnly (ascendingSet names) module
    exact ⟨place, specifiers, hs, hP⟩

/-- Names that have a meaning in imports, one of them twice. -/
def keywords : List String := ["type", "from", "as", "type"]

theorem importLine_reads_back_keywords :
    keywords ≠ [] ∧ (∀ n ∈ keywords, isFullName n = true) ∧
      ∃ line sorted, importLine? "import type" keywords "../as/\"from\"" = some line ∧
        sorted.Pairwise (· < ·) ∧ (∀ n, n ∈ sorted ↔ n ∈ keywords) ∧
        ∃ place specifiers,
          Parses line [.imports place ⟨"../as/\"from\"", specifiers, none, none, true⟩ none] ∧
            List.Forall₂ (IsSpecifier true) specifiers sorted := by
  have hne : keywords ≠ [] := by decide
  have hnames : ∀ n ∈ keywords, isFullName n = true := by decide +kernel
  obtain ⟨line, sorted, hline, hsorted, hmem, hiff⟩ :=
    importLine_reads_back_iff true hne hnames "../as/\"from\""
  exact ⟨hne, hnames, line, sorted, hline, hsorted, hmem, hiff.2 (by decide +kernel)⟩

/-- What a statement imports. -/
def importOf? : Statement → Option Import
  | .imports _ content _ => some content
  | _ => none

/-- A quote in the module ends it, and the rest of the line is refused; a backslash makes it another
module. -/
theorem importLine_unescaped :
    importLine? "import" ["Crm"] "it's" = some "import { Crm } from 'it's';" ∧
      (∀ ss, ¬ Parses "import { Crm } from 'it's';" ss) ∧
      importLine? "import" ["Crm"] "a\\b" = some "import { Crm } from 'a\\b';" ∧
      ∃ ss, Parses "import { Crm } from 'a\\b';" ss ∧
        ss.map importOf? = [some ⟨"a\x08", [⟨1, "Crm", none, false⟩], none, none, false⟩] := by
  have hrefused : parsed? "import { Crm } from 'it's';" = none := by decide +kernel
  have hother : (parsed? "import { Crm } from 'a\\b';").map (·.map importOf?) =
      some [some ⟨"a\x08", [⟨1, "Crm", none, false⟩], none, none, false⟩] := by decide +kernel
  obtain ⟨ss, hss, hmodule⟩ := Option.map_eq_some_iff.1 hother
  refine ⟨by decide +kernel, fun ss h => ?_, by decide +kernel, ss, parses_iff.2 hss, hmodule⟩
  rw [parses_iff, hrefused] at h
  cases h

end EventFlow.Emission
