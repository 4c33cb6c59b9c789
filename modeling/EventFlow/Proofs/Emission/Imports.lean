import EventFlow.Proofs.Emission.Sections
import EventFlow.Proofs.Extraction.Share
import Mathlib.Data.List.SplitBy

/-! Imports are read as they are written.

What comes from the module of the language, and types alone, add nothing to a model. The
integrations of one source are imported together, with a comment that describes them; sources and
names are in order, and in that order the integrations are found again:

    Gives (lines of the integrations is) (is in order) [] -/

namespace EventFlow

open DocComment Extraction Text Token

variable (typeOnly : Bool)

/-- A configuration whose modules can be written in quotes as they are. -/
structure Config.Proper (config : Config) : Prop where
  flow : isVerbatim config.flowImport = true
  dsl : config.flowImport ∈ config.dslModules
  integration : isVerbatim config.integrationImport = true

/-- An integration that can be imported and referred to. -/
structure Integration.Proper (config : Config) (i : Integration) : Prop where
  name : isFullName i.name = true
  reserved : i.name ∉ dslNames
  literal : i.name ∉ Program.literalNames
  source : isVerbatim i.source = true
  foreign : i.source ∉ config.dslModules
  description : ∀ s ∈ i.description, s ≠ "" ∧ IsTrimmedStart s.toList ∧
    IsTrimmedEnd s.toList ∧ '\n' ∉ s.toList ∧ ¬ ['*', '/'] <:+: s.toList

namespace Emission

open Program (ReadsStatement IsSpecifier importLexemes namedLexemes)

variable {config : Config} {names sorted : List String} {declared : Declared}
  {is g : List Integration} {module : String} {i : Integration}

/-! ## What lines give a model -/

/-- The lines are statements that give a model these integrations and flows. -/
def Gives (config : Config) (names : List String) (declared : Declared) (ts : List String)
    (is : List Integration) (fs : List Flow) : Prop :=
  ∃ xs, Holds config.nestingLimit ts (Adds config names config.nestingLimit declared) xs ∧
    allIntegrations xs = is ∧ allFlows xs = fs

theorem Gives.append {a b : List String} {js : List Integration} {fs gs : List Flow}
    (ha : Gives config names declared a is fs) (hb : Gives config names declared b js gs) :
    Gives config names declared (a ++ b) (is ++ js) (fs ++ gs) := by
  obtain ⟨xs, hxs, rfl, rfl⟩ := ha
  obtain ⟨ys, hys, rfl, rfl⟩ := hb
  exact ⟨xs ++ ys, hxs.append hys, List.flatMap_append, List.filterMap_append⟩

theorem Gives.blanks (n : Nat) : Gives config names declared (List.replicate n "") [] [] :=
  ⟨[], Holds.blanks n, rfl, rfl⟩

theorem Gives.nil : Gives config names declared [] [] [] := Gives.blanks 0

theorem Gives.flatten {α : Type} {tss : List (List String)} {xs : List α}
    {is : α → List Integration} {fs : α → List Flow}
    (h : List.Forall₂ (fun ts x => Gives config names declared ts (is x) (fs x)) tss xs) :
    Gives config names declared tss.flatten (xs.flatMap is) (xs.flatMap fs) := by
  induction h with
  | nil => exact Gives.nil
  | cons hts _ ih => exact hts.append ih

/-! ## Import lines -/

/-- The line that imports some names in order. -/
def importText (sorted : List String) (module : String) : String :=
  (if typeOnly then "import type" else "import") ++ r" { " ++ joinWith ", " sorted ++
    r" } from '" ++ module ++ "';"

/-- The line up to the quotes around its module. -/
def importHead (sorted : List String) : String :=
  (if typeOnly then "import type" else "import") ++ r" { " ++ joinWith ", " sorted ++
    r" } from "

/-- The lexemes of an import up to its module. -/
def importHeadLexemes (sorted : List String) : List Lexeme :=
  .identifier "import" :: (if typeOnly then [.identifier "type"] else []) ++
    (.punct r"{" :: listed (sorted.map fun n => [.identifier n]) ++
      [.punct r"}", .identifier "from"])

theorem importText_eq (sorted : List String) (module : String) :
    importText typeOnly sorted module =
      importHead typeOnly sorted ++ ("'" ++ module ++ "'") ++ ";" := by
  have hquote : (r" } from '" : String) = r" } from " ++ "'" := rfl
  have hlast : ("';" : String) = "'" ++ ";" := rfl
  simp only [importText, importHead, hquote, hlast, String.append_assoc]

theorem importLexemes_eq (sorted : List String) (module : String) :
    importLexemes typeOnly sorted module =
      importHeadLexemes typeOnly sorted ++ [.text module] ++ [.punct ";"] := by
  simp [importLexemes, namedLexemes, importHeadLexemes]

theorem inline_importHead (h : ∀ n ∈ sorted, isFullName n = true) :
    Inline (importHead typeOnly sorted) (importHeadLexemes typeOnly sorted) := by
  have hkeyword : Inline ((if typeOnly then "import type" else "import") ++ r" { ")
      (.identifier "import" :: (if typeOnly then [.identifier "type"] else []) ++
        [.punct r"{"]) := by
    cases typeOnly <;> exact Inline.of_check
  have hnames : Inline (joinWith ", " sorted)
      (listed (sorted.map fun n => [.identifier n])) := by
    refine Inline.joinWith (List.forall₂_map_right_iff.2 (List.forall₂_same.2 fun n hn => ?_))
    exact Inline.name (h n hn)
  have hfrom : Inline r" } from " [.punct r"}", .identifier "from"] := Inline.of_check
  have hopen : closed ((if typeOnly then "import type" else "import") ++ r" { ") = true :=
    closed_append (by decide)
  have hall := (hkeyword.append hnames (Or.inl hopen)).append hfrom (Or.inr (by decide))
  simpa [importHead, importHeadLexemes] using hall

theorem inline_importText (h : ∀ n ∈ sorted, isFullName n = true)
    (hmodule : isVerbatim module = true) :
    Inline (importText typeOnly sorted module) (importLexemes typeOnly sorted module) := by
  have hquoted := (inline_importHead typeOnly h).append (Inline.verbatim hmodule)
    (Or.inl (closed_append (by decide)))
  rw [importText_eq, importLexemes_eq]
  exact hquoted.append Inline.semicolon (Or.inr (by decide))

/-- The line is an import of the names. -/
theorem says_importText (d : Nat) (typeOnly : Bool) (h : ∀ n ∈ sorted, isFullName n = true)
    (hmodule : isVerbatim module = true) :
    Says d [importText typeOnly sorted module] fun doc s =>
      ∃ line ss, s = .imports line ⟨module, ss, none, none, typeOnly⟩ doc ∧
        List.Forall₂ (IsSpecifier typeOnly) ss sorted := by
  refine ⟨_, Lines.one (Line.of_inline (inline_importText typeOnly h hmodule) ?_ ?_),
    ReadsStatement.imports d typeOnly sorted module⟩
  · unfold importText
    refine isQuiet_append (isQuiet_append (isQuiet_append (isQuiet_append (isQuiet_append ?_))))
    cases typeOnly <;> decide
  · exact isTidy_append (by decide)

theorem importLine?_eq (ns : List String) (module : String) :
    (importLine? (if typeOnly then "import type" else "import") ns module).toList =
      if ascendingSet ns = [] then []
      else [importText typeOnly (ascendingSet ns) module] := by
  unfold importLine?
  split
  · next hnil => simp [hnil]
  · next hne =>
    rw [if_neg hne]
    rfl

theorem importLine?_ne_nil {ns : List String} (h : ns ≠ []) (module : String) :
    (importLine? (if typeOnly then "import type" else "import") ns module).toList ≠ [] := by
  obtain ⟨n, hn⟩ := List.exists_mem_of_ne_nil ns h
  rw [importLine?_eq, if_neg (List.ne_nil_of_mem (mem_ascendingSet.2 hn))]
  simp

/-- An import of what is no integration. -/
theorem gives_importLine {ns : List String} (h : ∀ n ∈ ns, isFullName n = true)
    (hmodule : isVerbatim module = true) (hnone : typeOnly = true ∨ module ∈ config.dslModules) :
    Gives config names declared
      (importLine? (if typeOnly then "import type" else "import") ns module).toList [] [] := by
  rw [importLine?_eq]
  split
  · exact Gives.nil
  · have hsays := says_importText config.nestingLimit typeOnly
      (fun n hn => h n (mem_ascendingSet.1 hn)) hmodule
    have hholds := hsays.holds_bare (P := Adds config names config.nestingLimit declared)
      (x := {}) ?_
    · exact ⟨[{}], hholds, rfl, rfl⟩
    · rintro s ⟨line, ss, rfl, -⟩
      refine adds_imports_nothing ?_
      have hskip : (typeOnly || config.dslModules.contains module) = true := by
        rcases hnone with rfl | hmem
        · rfl
        · simp [hmem]
      simp only [integrationNames, hskip, if_true]

/-! ## Descriptions of integrations -/

/-- The tags that describe some integrations. -/
def integrationTags (g : List Integration) : List Tag := g.filterMap integrationTag?

theorem integrationTag?_eq (h : i.Proper config) :
    integrationTag? i = i.description.map fun s => ⟨"integration", i.name ++ " " ++ s⟩ := by
  unfold integrationTag?
  cases hd : i.description with
  | none => rfl
  | some s =>
    have hne : s.isEmpty = false := by
      simpa [String.isEmpty_iff] using (h.description s hd).1
    simp [Json.isVoid, Json.display, hne]

theorem isPlainTag_integration (h : i.Proper config) {s : String} (hs : i.description = some s) :
    IsPlainTag ⟨"integration", i.name ++ " " ++ s⟩ := by
  obtain ⟨hne, -, hend, hline, -⟩ := h.description s hs
  have hname : "integration".toList.all (!isBlank ·) = true := by decide
  refine ⟨not_isBlank_of_all hname, ?_, ?_, ?_⟩
  · rw [String.append_assoc, String.toList_append]
    exact isTrimmedStart_append
      (fun c hc => (isNamePart_facts (isNamePart_of_mem h.name (List.mem_of_head? hc))).1)
      (ne_nil_of_isFullName h.name)
  · rw [String.toList_append]
    exact isTrimmedEnd_append hend (mt String.toList_eq_nil_iff.1 hne)
  · have hflat := Inline.newline_not_mem_of_isFullName h.name
    simp [String.toList_append, hflat, hline]

theorem isFaithful_integrations (h : ∀ i ∈ g, i.Proper config) :
    IsFaithful none (integrationTags g) := by
  have htags : ∀ t ∈ integrationTags g, ∃ i ∈ g, ∃ s, i.description = some s ∧
      t = ⟨"integration", i.name ++ " " ++ s⟩ := by
    intro t ht
    obtain ⟨i, hi, htag⟩ := List.mem_filterMap.1 ht
    rw [integrationTag?_eq (h i hi)] at htag
    obtain ⟨s, hs, rfl⟩ := Option.map_eq_some_iff.1 htag
    exact ⟨i, hi, s, hs, rfl⟩
  refine ⟨by simp, fun t ht => ?_, by simp, fun t ht => ?_⟩
  · obtain ⟨i, hi, s, hs, rfl⟩ := htags t ht
    exact isPlainTag_integration (h i hi) hs
  · obtain ⟨i, hi, s, hs, rfl⟩ := htags t ht
    obtain ⟨-, hstart, -, -, hclosed⟩ := (h i hi).description s hs
    have hname : '*' ∉ "integration".toList := by decide
    rw [infix_tagLine_iff]
    refine not_or.2 ⟨not_infix_pair hname, ?_⟩
    have hstar : '*' ∉ i.name.toList := fun hmem =>
      absurd (isNamePart_of_mem (h i hi).name hmem) (by decide)
    rw [String.append_assoc, String.toList_append, pair_infix_append]
    rintro (hmem | hmem | ⟨hlast, -⟩)
    · exact not_infix_pair hstar hmem
    · rw [String.toList_append, pair_infix_append] at hmem
      rcases hmem with hmem | hmem | ⟨hlast, -⟩
      · exact absurd hmem (by decide)
      · exact hclosed hmem
      · exact absurd hlast (by decide)
    · exact hstar (List.mem_of_getLast? hlast)

/-- What a comment says of the integrations that it describes. -/
theorem integrationTexts_docOf (h : ∀ i ∈ g, i.Proper config) :
    integrationTexts (docOf none (integrationTags g) "") =
      g.filterMap fun i => i.description.map fun s => (i.name, some s) := by
  have hparse : ∀ tags, tags = integrationTags g → (tags.filterMap fun tag : Tag =>
      if tag.name = "integration" then
        some (String.ofList (splitFirst ' ' tag.value.toList).1,
          if (String.ofList (trimChars (splitFirst ' ' tag.value.toList).2)).isEmpty
          then none
          else some (String.ofList (trimChars (splitFirst ' ' tag.value.toList).2)))
      else none) = g.filterMap fun i => i.description.map fun s => (i.name, some s) := by
    rintro _ rfl
    rw [integrationTags, List.filterMap_filterMap]
    refine List.filterMap_congr fun i hi => ?_
    rw [integrationTag?_eq (h i hi)]
    cases hd : i.description with
    | none => rfl
    | some s =>
      obtain ⟨hne, hstart, hend, -, -⟩ := (h i hi).description s hd
      have hblank : ∀ c ∈ i.name.toList, isBlank c = false := fun c hc =>
        (isNamePart_facts (isNamePart_of_mem (h i hi).name hc)).1
      have hvalue : (i.name ++ " " ++ s).toList = i.name.toList ++
          (if s.toList = [] then [] else ' ' :: s.toList) := by
        rw [if_neg (mt String.toList_eq_nil_iff.1 hne)]
        simp [String.toList_append]
      have hempty : s.isEmpty = false := by simpa [String.isEmpty_iff] using hne
      simp only [Option.map_some, Option.bind_some, hvalue, splitFirst_name hblank,
        trimChars_of_isTrimmed hstart hend, String.ofList_toList, hempty]
      rfl
  rcases docOf_cases (isFaithful_integrations h) (by decide : IsIndent "") with
    ⟨hnone, -, htags⟩ | ⟨raw, hraw, hdoc⟩
  · rw [hnone]
    exact hparse [] htags.symm
  · rw [hraw]
    exact hparse _ (by rw [hdoc])

theorem lookup_of_mem {β : Type} {xs : List (String × β)} (h : (xs.map (·.1)).Nodup) {k : String}
    {v : β} (hmem : (k, v) ∈ xs) : xs.lookup k = some v := by
  obtain ⟨front, back, rfl⟩ := List.append_of_mem hmem
  refine List.lookup_eq_some_iff.2 ⟨front, back, rfl, fun p hp => ?_⟩
  rw [List.map_append, List.map_cons, List.nodup_append] at h
  have hne : p.1 ≠ k := h.2.2 _ (List.mem_map_of_mem hp) _ List.mem_cons_self
  simpa using hne.symm

/-- Each integration is described by its own text. -/
theorem integrationText?_docOf (h : ∀ i ∈ g, i.Proper config) (hnodup : (g.map (·.name)).Nodup)
    (hi : i ∈ g) :
    integrationText? (integrationTexts (docOf none (integrationTags g) "")) i.name =
      i.description := by
  let texts := g.filterMap fun i => i.description.map fun s => (i.name, some s)
  have hsub : (texts.map (·.1)).Sublist (g.map (·.name)) := by
    have hkeys : texts.map (·.1) = (g.filter (·.description.isSome)).map (·.name) := by
      simp only [texts]
      clear hnodup hi h
      induction g with
      | nil => rfl
      | cons j g ih => cases hd : j.description <;> simp [hd, ih]
    rw [hkeys]
    exact List.filter_sublist.map _
  have hkeys : (texts.reverse.map (·.1)).Nodup := by
    rw [List.map_reverse, List.nodup_reverse]
    exact hsub.nodup hnodup
  rw [integrationTexts_docOf h, integrationText?]
  show (texts.reverse.lookup i.name).bind id = _
  cases hd : i.description with
  | some s =>
    have hmem : (i.name, some s) ∈ texts.reverse :=
      List.mem_reverse.2 (List.mem_filterMap.2 ⟨i, hi, by rw [hd]; rfl⟩)
    rw [lookup_of_mem hkeys hmem]
    rfl
  | none =>
    have hnone : texts.reverse.lookup i.name = none := by
      rw [List.lookup_eq_none_iff]
      intro p hp
      obtain ⟨j, hj, hpair⟩ := List.mem_filterMap.1 (List.mem_reverse.1 hp)
      obtain ⟨s, hs, rfl⟩ := Option.map_eq_some_iff.1 hpair
      -- two integrations of one name would be one and the same
      have hne : i.name ≠ j.name := by
        intro heq
        rw [List.inj_on_of_nodup_map hnodup hi hj heq] at hd
        rw [hd] at hs
        cases hs
      simpa using hne
    rw [hnone]
    rfl

/-! ## Integrations in order -/

theorem integrationBefore_iff (a b : Integration) : integrationBefore a b = true ↔
    if a.source = b.source then a.name ≤ b.name else a.source ≤ b.source := by
  by_cases h : a.source = b.source <;>
    simp [integrationBefore, h, Leaf.same, Json.same_text, Json.notAfter]

theorem integrationBefore_trans (a b c : Integration) (hab : integrationBefore a b = true)
    (hbc : integrationBefore b c = true) : integrationBefore a c = true := by
  rw [integrationBefore_iff] at *
  by_cases h : a.source = b.source
  · rw [if_pos h] at hab
    by_cases h' : b.source = c.source
    · rw [if_pos h'] at hbc
      rw [if_pos (h.trans h')]
      exact String.le_trans hab hbc
    · rw [if_neg h'] at hbc
      rwa [h, if_neg h']
  · rw [if_neg h] at hab
    by_cases h' : b.source = c.source
    · rwa [← h', if_neg h]
    · rw [if_neg h'] at hbc
      have hne : a.source ≠ c.source := by
        intro heq
        rw [heq] at hab h
        exact h (String.le_antisymm hab hbc)
      rw [if_neg hne]
      exact String.le_trans hab hbc

theorem integrationBefore_total (a b : Integration) :
    (integrationBefore a b || integrationBefore b a) = true := by
  rw [Bool.or_eq_true, integrationBefore_iff, integrationBefore_iff]
  by_cases h : a.source = b.source
  · rw [if_pos h, if_pos h.symm]
    exact String.le_total _ _
  · rw [if_neg h, if_neg (Ne.symm h)]
    exact String.le_total _ _

/-- The integrations in the order of their imports. -/
def inOrder (is : List Integration) : List Integration := is.mergeSort integrationBefore

theorem pairwise_inOrder (is : List Integration) :
    (inOrder is).Pairwise fun a b => integrationBefore a b = true :=
  List.pairwise_mergeSort integrationBefore_trans integrationBefore_total is

theorem mem_inOrder : i ∈ inOrder is ↔ i ∈ is :=
  List.mem_mergeSort

theorem inOrder_perm (is : List Integration) : (inOrder is).Perm is := List.mergeSort_perm _ _

theorem sortable_sources (is : List Integration) :
    Json.sortable (Json.distinct (is.map fun i => Leaf.value i.source)) = true :=
  (Json.AreTexts.map (fun i : Integration => i.source) is).distinct.sortable

/-- What the integrations of one import have in common. -/
structure IsGroup (g : List Integration) (source : String) : Prop where
  source : ∀ i ∈ g, i.source = source
  sorted : (g.map (·.name)).Pairwise (· ≤ ·)

theorem flatten_integrationGroups (is : List Integration) :
    (integrationGroups is).flatten = inOrder is :=
  List.flatten_splitBy _ _

theorem isGroup_of_mem (hg : g ∈ integrationGroups is) :
    ∃ i rest, g = i :: rest ∧ IsGroup g i.source := by
  obtain ⟨i, rest, rfl⟩ := List.exists_cons_of_ne_nil (List.ne_nil_of_mem_splitBy hg)
  have hchain : (i :: rest).IsChain fun a b => a.source = b.source :=
    (List.isChain_of_mem_splitBy hg).imp fun a b hab => by
      simpa [Leaf.same, Json.same_text] using hab
  let Same (a b : Integration) : Prop := a.source = b.source
  have : Trans Same Same Same := ⟨Eq.trans⟩
  have hsame : (i :: rest).Pairwise Same := List.isChain_iff_pairwise.1 hchain
  have hsub : (i :: rest).Sublist (inOrder is) := by
    rw [← flatten_integrationGroups]
    exact List.sublist_flatten_of_mem hg
  refine ⟨i, rest, rfl, fun j hj => ?_, ?_⟩
  · rcases List.mem_cons.1 hj with rfl | hj
    · rfl
    · exact (List.rel_of_pairwise_cons hsame hj).symm
  · rw [List.pairwise_map]
    refine (((pairwise_inOrder is).sublist hsub).and hsame).imp fun {a b} hab => ?_
    have hbefore := (integrationBefore_iff a b).1 hab.1
    rwa [if_pos hab.2] at hbefore

theorem importLine?_nil (module : String) :
    (importLine? (if typeOnly then "import type" else "import") [] module).toList = [] := by
  rw [importLine?_eq, if_pos (ascendingSet_of_perm .nil .nil .nil)]

theorem listedNames_map (names : List String) : listedNames (names.map .text) = .ok names := by
  have hall : (names.map Json.text).mapM Json.text? = some names := by
    induction names with
    | nil => rfl
    | cons n names ih =>
      rw [List.map_cons, List.mapM_cons, ih]
      rfl
  rw [listedNames, hall]

/-- The import of some integrations of one source, below their descriptions. -/
theorem groupLines_eq {rest : List Integration} (h : IsGroup (i :: rest) i.source)
    (hnodup : ((i :: rest).map (·.name)).Nodup) :
    groupLines (i :: rest) = .ok (format none (integrationTags (i :: rest)) "" ++
      [importText false ((i :: rest).map (·.name)) i.source]) := by
  have hnames : listedNames ((i :: rest).map fun i => Leaf.value i.name) =
      .ok ((i :: rest).map (·.name)) := by
    rw [← listedNames_map, List.map_map]
    rfl
  have hline := importLine?_eq false ((i :: rest).map (·.name)) i.source
  rw [ascendingSet_of_perm hnodup (.refl _) h.sorted] at hline
  rw [groupLines, hnames]
  exact congrArg (fun line => Except.ok (format none _ "" ++ line)) hline

theorem integrationNames_eq {ss : List Specifier} (h : List.Forall₂ (IsSpecifier false) ss sorted)
    (hne : sorted ≠ []) (hreserved : ∀ n ∈ sorted, n ∉ dslNames)
    (hforeign : module ∉ config.dslModules) :
    integrationNames config ⟨module, ss, none, none, false⟩ = ss := by
  have hvalues : ss.filter (fun s => !s.typeOnly) = ss := by
    rw [List.filter_eq_self]
    have hflags := ((List.forall₂_and_left _ _).1 (h.imp fun s n hs => ⟨hs.2.2, hs⟩)).1
    intro s hs
    simp [hflags s hs]
  have hany : ss.all (fun s => dslNames.contains s.name) = false := by
    cases h with
    | nil => exact absurd rfl hne
    | @cons s n ss sorted hs _ =>
      have hname : dslNames.contains s.name = false := by
        rw [hs.1]
        simpa using hreserved n List.mem_cons_self
      rw [List.all_cons, hname, Bool.false_and]
  have hskip : (false || config.dslModules.contains module) = false := by simpa using hforeign
  simp only [integrationNames, hskip, hvalues, hany, Bool.false_eq_true, if_false]

/-- The integrations of one source are imported with their descriptions. -/
theorem gives_group {source : String} (h : IsGroup g source) (hproper : ∀ i ∈ g, i.Proper config)
    (hne : g ≠ []) (hnodup : (g.map (·.name)).Nodup) :
    Gives config names declared (format none (integrationTags g) "" ++
      [importText false (g.map (·.name)) source]) g [] := by
  obtain ⟨i, hi⟩ := List.exists_mem_of_ne_nil g hne
  have hsource : isVerbatim source = true := h.source i hi ▸ (hproper i hi).source
  have hforeign : source ∉ config.dslModules := h.source i hi ▸ (hproper i hi).foreign
  have hfull : ∀ n ∈ g.map (·.name), isFullName n = true :=
    List.forall_mem_map.2 fun i hi => (hproper i hi).name
  have hreserved : ∀ n ∈ g.map (·.name), n ∉ dslNames :=
    List.forall_mem_map.2 fun i hi => (hproper i hi).reserved
  have hholds := (says_importText config.nestingLimit false hfull hsource).holds
    (P := Adds config names config.nestingLimit declared) (x := { integrations := g })
    (isFaithful_integrations hproper).sayable ?_
  · exact ⟨[{ integrations := g }], hholds, by simp [allIntegrations], rfl⟩
  · rintro s ⟨line, ss, rfl, hss⟩
    refine adds_imports ?_
    rw [integrationNames_eq hss (by simpa using hne) hreserved hforeign]
    have hmem := (List.forall₂_and_left g ss).2
      ⟨fun i hi => hi, (List.forall₂_map_right_iff.1 hss).flip⟩
    refine hmem.flip.imp ?_
    rintro s i ⟨hi, hname, hrenamed, -⟩
    have hlocal : s.localName = i.name := by
      simp [Specifier.localName, hrenamed, hname]
    rw [hlocal, integrationText?_docOf hproper hnodup hi, ← h.source i hi]

/-- The source of a group, of which none is empty. -/
def groupSource : List Integration → String
  | [] => ""
  | i :: _ => i.source

/-- The imports of some integrations, below their descriptions: one for each group. -/
theorem groupLines_of_mem (hnodup : (is.map (·.name)).Nodup) (hg : g ∈ integrationGroups is) :
    IsGroup g (groupSource g) ∧ g ≠ [] ∧ g.Sublist (inOrder is) ∧ (g.map (·.name)).Nodup ∧
      groupLines g = .ok (format none (integrationTags g) "" ++
        [importText false (g.map (·.name)) (groupSource g)]) := by
  obtain ⟨i, rest, rfl, hshape⟩ := isGroup_of_mem hg
  have hsub : (i :: rest).Sublist (inOrder is) := by
    rw [← flatten_integrationGroups]
    exact List.sublist_flatten_of_mem hg
  have hnames : ((i :: rest).map (·.name)).Nodup :=
    (hsub.map _).nodup (((inOrder_perm is).map _).nodup_iff.2 hnodup)
  exact ⟨hshape, by simp, hsub, hnames, groupLines_eq hshape hnames⟩

/-- The integrations are imported in order. -/
theorem gives_integrationLines (h : ∀ i ∈ is, i.Proper config) (hnodup : (is.map (·.name)).Nodup) :
    ∃ ls, integrationLines is = .ok ls ∧ Gives config names declared ls (inOrder is) [] := by
  have hgroup : ∀ g ∈ integrationGroups is, ∃ ls, groupLines g = .ok ls ∧
      Gives config names declared ls g [] := by
    intro g hg
    obtain ⟨hshape, hne, hsub, hnames, hlines⟩ := groupLines_of_mem hnodup hg
    have hproper : ∀ j ∈ g, j.Proper config := fun j hj => h j (mem_inOrder.1 (hsub.subset hj))
    exact ⟨_, hlines, gives_group hshape hproper hne hnames⟩
  obtain ⟨lss, hlines, hgives⟩ := exists_mapM hgroup
  refine ⟨lss.flatten, ?_, ?_⟩
  · rw [integrationLines, if_pos (sortable_sources is), hlines]
    rfl
  · have hall : Gives config names declared lss.flatten
        ((integrationGroups is).flatMap fun g => g) ((integrationGroups is).flatMap fun _ => []) :=
      Gives.flatten hgives
    have hnone : (integrationGroups is).flatMap (fun _ => ([] : List Flow)) = [] := by simp
    rwa [hnone, List.flatMap_id', flatten_integrationGroups] at hall

/-! ## All imports -/

theorem isFullName_dslFunctions {f : String} (h : f ∈ dslFunctions) : isFullName f = true :=
  List.all_eq_true.1 (by decide : dslFunctions.all isFullName = true) f h

theorem isFullName_typeName (kind : MessageKind) : isFullName kind.typeName = true := by
  cases kind <;> decide

/-- All imports of a model are read, and give its integrations in order. -/
theorem gives_importLines (hconfig : config.Proper) {functions : List String}
    (hfunctions : ∀ f ∈ functions, f ∈ dslFunctions) (kinds : List MessageKind)
    (h : ∀ i ∈ is, i.Proper config) (hnodup : (is.map (·.name)).Nodup) {types : List String}
    (htypes : ∀ n ∈ types, isFullName n = true) :
    ∃ ls, importLines config functions kinds is types = .ok ls ∧
      Gives config names declared ls (inOrder is) [] ∧ (kinds ≠ [] → ls ≠ []) := by
  have hknown : functions.filter (fun name => !dslFunctions.contains name) = [] := by
    simpa using hfunctions
  have hkinds : ∀ n ∈ kinds.map (·.typeName), isFullName n = true :=
    List.forall_mem_map.2 fun kind _ => isFullName_typeName kind
  obtain ⟨modules, hmodules, hintegrations⟩ : ∃ ls, integrationLines is = .ok ls ∧
      Gives config names declared ls (inOrder is) [] := gives_integrationLines h hnodup
  have hused : Gives config names declared
      (importLine? "import" functions config.flowImport).toList [] [] :=
    gives_importLine false (fun f hf => isFullName_dslFunctions (hfunctions f hf)) hconfig.flow
      (Or.inr hconfig.dsl)
  have hdeclared : Gives config names declared
      (importLine? "import type" (kinds.map (·.typeName)) config.flowImport).toList [] [] :=
    gives_importLine true hkinds hconfig.flow (Or.inl rfl)
  have hforeign : Gives config names declared
      (importLine? "import type" types config.integrationImport).toList [] [] :=
    gives_importLine true htypes hconfig.integration (Or.inl rfl)
  refine ⟨_, by rw [importLines, hknown, hmodules]; rfl, ?_, fun hne hnil => ?_⟩
  · simpa using ((hused.append hdeclared).append hintegrations).append hforeign
  · have hnames : kinds.map (·.typeName) ≠ [] := by simpa using hne
    simp only [List.append_eq_nil_iff] at hnil
    exact importLine?_ne_nil true hnames config.flowImport hnil.1.1.2

/-- A model without messages and integrations imports the functions it uses and nothing else. -/
theorem importLines_functions (config : Config) {functions : List String}
    (hknown : ∀ n ∈ functions, n ∈ dslFunctions) (hnodup : functions.Nodup)
    (hperm : functions.Perm sorted) (hsorted : sorted.Pairwise (· ≤ ·)) (hne : sorted ≠ []) :
    importLines config functions [] ([] : List Integration) [] =
      .ok [importText false sorted config.flowImport] := by
  have hunknown : functions.filter (fun name => !dslFunctions.contains name) = [] := by
    simpa using hknown
  have hmodules : integrationLines ([] : List Integration) = .ok [] := by
    have hgroups : integrationGroups ([] : List Integration) = [] := by
      rw [integrationGroups, List.mergeSort_nil, List.splitBy_nil]
    rw [integrationLines, hgroups, if_pos (by decide)]
    rfl
  have hline := importLine?_eq false functions config.flowImport
  rw [ascendingSet_of_perm hnodup hperm hsorted, if_neg hne] at hline
  have hkinds := importLine?_nil true config.flowImport
  have htypes := importLine?_nil true config.integrationImport
  simp only [Bool.false_eq_true, ↓reduceIte] at hline hkinds htypes
  rw [importLines, hunknown, hmodules]
  simp [bind, Except.bind, pure, Except.pure, hline, hkinds, htypes]

end Emission

end EventFlow
