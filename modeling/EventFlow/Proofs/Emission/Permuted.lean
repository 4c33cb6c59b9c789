import EventFlow.Proofs.Emission.Acceptance
import EventFlow.Proofs.Emission.Imports
import EventFlow.Proofs.Emission.Uses

/-! The order of the integrations does not matter to a source text.

A model is looked through for integrations by name only, repeated names are listed in ascending
order, and integrations with different names have just one order by source and name:

    is.Perm m.integrations  →  generate config { m with integrations := is } = generate config m

There is one import for each source, in ascending order. -/

namespace EventFlow

open Text

/-! ## Repeated names -/

theorem Text.repeated_of_perm {xs ys : List String} (h : xs.Perm ys) :
    repeated xs = repeated ys := by
  apply ascendingSet_congr
  intro x
  rw [List.mem_filter, List.mem_filter, h.mem_iff, h.count_eq]

theorem Json.distinct_texts (xs : List String) :
    Json.distinct (xs.map .text) = xs.eraseDups.map .text := by
  have key : ∀ known : List String,
      (xs.map Json.text).foldl (fun known x => if isIn known x then known else known ++ [x])
        (known.map .text) = (xs.foldl mention known).map .text := by
    induction xs with
    | nil => exact fun known => rfl
    | cons x rest ih =>
      intro known
      rw [List.map_cons, List.foldl_cons, List.foldl_cons, ← ih]
      congr 1
      by_cases hx : x ∈ known
      · rw [if_pos ((isIn_texts known x).2 hx), mention, if_pos (by simpa using hx)]
      · rw [if_neg (mt (isIn_texts known x).1 hx), mention, if_neg (by simpa using hx)]
        simp
  rw [← foldl_mention]
  exact key []

theorem Json.repeated_map (xs : List String) :
    Json.repeated (xs.map .text) = (xs.filter fun x => 1 < xs.count x).eraseDups.map .text := by
  rw [← distinct_texts, repeated, List.filter_map]
  congr 2
  apply List.filter_congr
  intro x _
  simp [countIn_texts]

namespace Emission

theorem checkNames_texts (fault : List String → Fault) (xs : List String) :
    checkNames fault (xs.map .text) =
      if repeated xs = [] then .ok () else .error (fault (repeated xs)) := by
  have hnil : repeated xs = [] ↔ (xs.filter fun x => 1 < xs.count x).eraseDups = [] := by
    rw [List.eq_nil_iff_forall_not_mem, List.eq_nil_iff_forall_not_mem]
    apply forall_congr'
    intro x
    rw [repeated, mem_ascendingSet, List.mem_eraseDups]
  rw [checkNames, Json.repeated_map]
  split
  · next hrepeated => rw [if_pos (hnil.2 (List.map_eq_nil_iff.1 hrepeated))]
  · next hrepeated =>
    rw [if_neg (mt hnil.1 (mt (fun h => List.map_eq_nil_iff.2 h) hrepeated)), listedNames_map]
    rfl

theorem checkNames_of_perm (fault : List String → Fault) {xs ys : List String} (h : xs.Perm ys) :
    checkNames fault (xs.map .text) = checkNames fault (ys.map .text) := by
  rw [checkNames_texts, checkNames_texts, repeated_of_perm h]

/-! ## The flows -/

section

variable {m : Model} {is : List Integration} (h : is.Perm m.integrations)

/-- The model with other integrations. -/
abbrev withIntegrations (m : Model) (is : List Integration) : Model := { m with integrations := is }

include h

theorem integration?_of_perm (name : String) :
    ((withIntegrations m is).integration? name).isNone = (m.integration? name).isNone := by
  rw [Bool.eq_iff_iff, integration?_isNone, integration?_isNone]
  simp only [Model.HasIntegration, h.mem_iff]

theorem systemNames_of_perm (systems : List String) :
    systemNames (withIntegrations m is) systems = systemNames m systems := by
  simp only [systemNames, integration?_of_perm h]

theorem entryChain_of_perm (e : Entry) :
    entryChain (withIntegrations m is) e = entryChain m e := by
  have hdestination : ∀ d : Destination,
      destinationCall (withIntegrations m is) d = destinationCall m d := by
    intro d
    cases d <;> simp only [destinationCall, systemNames_of_perm h]
  have horigin : ∀ o : Origin, originCall (withIntegrations m is) o = originCall m o := by
    intro o
    cases o <;> simp only [originCall, systemNames_of_perm h]
  fun_induction entryChain m e with
  | case1 => rw [entryChain, horigin]
  | case2 => rw [entryChain, hdestination]
  | case3 _ _ _ _ ih => rw [entryChain, hdestination, ih]

theorem flowLines_of_perm : flowLines (withIntegrations m is) = flowLines m := by
  have hspecs : specLines (withIntegrations m is) = specLines m := rfl
  have hserver : serverLines (withIntegrations m is) = serverLines m := by
    funext kind indent s
    simp only [serverLines, dataLines, entryChain_of_perm h, hspecs]
  have hslices : sliceLines (withIntegrations m is) "  " = sliceLines m "  " := by
    funext s
    simp only [sliceLines, hserver]
  funext x
  simp only [flowLines, hslices]

end

/-! ## The imports -/

/-- Integrations with different names have one order. -/
theorem inOrder_of_perm {is js : List Integration} (h : is.Perm js)
    (hnodup : (js.map (·.name)).Nodup) : inOrder is = inOrder js := by
  apply List.Perm.eq_of_pairwise _ (pairwise_inOrder is) (pairwise_inOrder js)
    ((inOrder_perm is).trans (h.trans (inOrder_perm js).symm))
  intro a b ha hb hab hba
  rw [integrationBefore_iff] at hab hba
  have hname : a.name = b.name := by
    by_cases hsource : a.source = b.source
    · rw [if_pos hsource] at hab
      rw [if_pos hsource.symm] at hba
      exact String.le_antisymm hab hba
    · rw [if_neg hsource] at hab
      rw [if_neg (Ne.symm hsource)] at hba
      exact absurd (String.le_antisymm hab hba) hsource
  exact List.inj_on_of_nodup_map hnodup (h.mem_iff.1 (mem_inOrder.1 ha)) (mem_inOrder.1 hb) hname

theorem integrationLines_of_perm {is js : List Integration} (h : is.Perm js)
    (hnodup : (js.map (·.name)).Nodup) : integrationLines is = integrationLines js := by
  have hgroups : integrationGroups is = integrationGroups js :=
    congrArg (List.splitBy _) (inOrder_of_perm h hnodup)
  rw [integrationLines, integrationLines, if_pos (sortable_sources is),
    if_pos (sortable_sources js), hgroups]

theorem nodup_of_checkModel {m : Model} (h : checkModel m = .ok ()) :
    (m.integrations.map (·.name)).Nodup := by
  obtain ⟨_, -, h⟩ := bind_eq_ok.1 h
  by_contra hrepeated
  obtain ⟨fault, hfault, -⟩ := (verdict_checkNames .duplicateIntegrations (fun _ => rfl)
    (m.integrations.map (·.name))).refused hrepeated
  rw [List.map_map] at hfault
  cases h.symm.trans hfault

theorem checkModel_of_perm {m : Model} {is : List Integration} (h : is.Perm m.integrations) :
    checkModel (withIntegrations m is) = checkModel m := by
  have hnames := checkNames_of_perm .duplicateIntegrations (h.map (·.name))
  rw [List.map_map, List.map_map] at hnames
  exact congrArg (fun check => checkNames .duplicateMessages _ >>= fun _ => check) hnames

/-- A model with its integrations in another order has the same text, or the same fault. -/
theorem generate_of_perm {m : Model} {is : List Integration} (config : Config)
    (h : is.Perm m.integrations) : generate config (withIntegrations m is) = generate config m := by
  have hforeign : foreignTypes (withIntegrations m is) = foreignTypes m := rfl
  unfold generate
  rw [checkModel_of_perm h, flowLines_of_perm h, hforeign]
  cases hcheck : checkModel m with
  | error fault => rfl
  | ok =>
    have hlines := integrationLines_of_perm h (nodup_of_checkModel hcheck)
    simp only [importLines, hlines]

/-! ## One import for each source -/

/-- A group comes before another one just by its source. -/
theorem groupSource_lt {a b : List Integration} (ha : IsGroup a (groupSource a))
    (hb : IsGroup b (groupSource b))
    (hbefore : ∀ x ∈ a, ∀ y ∈ b, integrationBefore x y = true)
    (hapart : ∃ hane hbne, Leaf.same (a.getLast hane).source (b.head hbne).source = false) :
    groupSource a < groupSource b := by
  obtain ⟨hane, hbne, hapart⟩ := hapart
  have hlast := ha.source _ (List.getLast_mem hane)
  have hhead := hb.source _ (List.head_mem hbne)
  have horder := (integrationBefore_iff _ _).1
    (hbefore _ (List.getLast_mem hane) _ (List.head_mem hbne))
  rw [hlast, hhead] at horder hapart
  have hne : groupSource a ≠ groupSource b := by simpa [Leaf.same, Json.same_text] using hapart
  rw [if_neg hne] at horder
  by_contra hnot
  exact hne (String.le_antisymm horder (String.not_lt.1 hnot))

/-- Groups that are in order and apart from one another have ascending sources. -/
theorem pairwise_groupSource {gs : List (List Integration)}
    (hgroups : ∀ g ∈ gs, IsGroup g (groupSource g))
    (hbefore : gs.Pairwise fun a b => ∀ x ∈ a, ∀ y ∈ b, integrationBefore x y = true)
    (hapart : gs.IsChain fun a b =>
      ∃ hane hbne, Leaf.same (a.getLast hane).source (b.head hbne).source = false) :
    (gs.map groupSource).Pairwise (· < ·) := by
  have : Trans (α := String) (· < ·) (· < ·) (· < ·) := ⟨String.lt_trans⟩
  rw [← List.isChain_iff_pairwise, List.isChain_map]
  induction gs with
  | nil => exact .nil
  | cons a gs ih =>
    cases gs with
    | nil => exact .singleton a
    | cons b gs =>
      rw [List.isChain_cons_cons] at hapart ⊢
      rw [List.pairwise_cons] at hbefore
      refine ⟨?_, ih (fun g hg => hgroups g (List.mem_cons_of_mem a hg)) hbefore.2 hapart.2⟩
      exact groupSource_lt (hgroups a List.mem_cons_self)
        (hgroups b (List.mem_cons_of_mem a List.mem_cons_self)) (hbefore.1 b List.mem_cons_self)
        hapart.1

/-- The lines that import some integrations, group by group. -/
theorem integrationLines_groups {is : List Integration} (hnodup : (is.map (·.name)).Nodup) :
    integrationLines is = .ok ((integrationGroups is).flatMap fun g =>
      DocComment.format none (integrationTags g) "" ++
        [importText false (g.map (·.name)) (groupSource g)]) := by
  have hlines := mapM_ok (f := groupLines) (List.forall₂_map_right_iff.2 (List.forall₂_same.2
    fun g hg => (groupLines_of_mem hnodup hg).2.2.2.2))
  rw [integrationLines, if_pos (sortable_sources is), hlines, List.flatMap_def]
  rfl

/-- **The order of the integrations does not matter.** A model with its integrations in another
order has the same text or the same fault.  In the text there is one import for each source, in
ascending order, below the descriptions of its integrations; it lists the names of these in
ascending order, and each integration stands in just one. -/
theorem generate_ignores_order (config : Config) (m : Model) (is : List Integration)
    (h : is.Perm m.integrations) :
    generate config { m with integrations := is } = generate config m ∧
    ∀ text, generate config m = .ok text →
      ∃ (groups : List (String × List Integration)) (functions types modules : List String)
        (sections : List (List String)),
        text = joinSections (
          ((importLine? "import" functions config.flowImport).toList ++
            (importLine? "import type" (m.messages.map (·.kind.typeName))
              config.flowImport).toList ++
            modules ++ (importLine? "import type" types config.integrationImport).toList) ::
          sections) ∧
        integrationLines m.integrations = .ok modules ∧
        modules = groups.flatMap (fun g => DocComment.format none (integrationTags g.2) "" ++
          [importText false (g.2.map (·.name)) g.1]) ∧
        (groups.map (·.1)).Pairwise (· < ·) ∧
        (∀ g ∈ groups, g.2 ≠ [] ∧ (∀ i ∈ g.2, i.source = g.1) ∧
          (g.2.map (·.name)).Pairwise (· < ·)) ∧
        (groups.flatMap (·.2)).Perm m.integrations := by
  refine ⟨generate_of_perm config h, fun text htext => ?_⟩
  obtain ⟨flows, usage, types, foreign, imports, hcheck, -, -, -, himports, rfl⟩ :=
    sections_of_generate htext
  obtain ⟨modules, hmodules, rfl⟩ := importLines_eq himports
  have hnodup := nodup_of_checkModel hcheck
  have hgroup : ∀ g ∈ integrationGroups m.integrations, _ := fun g hg => groupLines_of_mem hnodup hg
  have hflatten := flatten_integrationGroups m.integrations
  have horder := pairwise_inOrder m.integrations
  rw [← hflatten, List.pairwise_flatten] at horder
  refine ⟨(integrationGroups m.integrations).map fun g => (groupSource g, g),
    (buildersFor usage).1.functions, foreign, modules, types ++ [(buildersFor usage).2] ++ flows,
    ?_, hmodules, ?_, ?_, ?_, ?_⟩
  · simp [List.map_map, Function.comp_def]
  · rw [integrationLines_groups hnodup] at hmodules
    rw [List.flatMap_map, Except.ok.inj hmodules]
  · rw [List.map_map]
    exact pairwise_groupSource (fun g hg => (hgroup g hg).1) horder.2
      (List.isChain_getLast_head_splitBy (fun a b : Integration => Leaf.same a.source b.source) _)
  · intro g hg
    obtain ⟨g, hmem, rfl⟩ := List.mem_map.1 hg
    obtain ⟨hshape, hne, -, hnames, -⟩ := hgroup g hmem
    exact ⟨hne, hshape.source, pairwise_lt hshape.sorted hnames⟩
  · rw [List.flatMap_map, List.flatMap_id', hflatten]
    exact inOrder_perm m.integrations

/-- Three integrations of two sources. -/
def scattered : Model :=
  { integrations := [⟨"Warehouse", "./stock", some "Holds it."⟩, ⟨"Carrier", "./post", none⟩,
      ⟨"Depot", "./stock", none⟩] }

theorem generate_ignores_order_scattered :
    scattered.integrations.reverse.Perm scattered.integrations ∧
    generate {} { scattered with integrations := scattered.integrations.reverse } =
      generate {} scattered ∧
    ∃ text, generate {} scattered = .ok text ∧
      ∃ (groups : List (String × List Integration)), (groups.map (·.1)).Pairwise (· < ·) ∧
        (groups.flatMap (·.2)).Perm scattered.integrations := by
  have hperm : scattered.integrations.reverse.Perm scattered.integrations := List.reverse_perm _
  obtain ⟨hsame, hgroups⟩ := generate_ignores_order {} scattered _ hperm
  have htyped : scattered.IsTyped := by
    constructor <;> simp [scattered, Model.entries, Model.examples, Model.slices]
  obtain ⟨text, htext⟩ := (verdict_generate {} htyped).accepted
    ⟨⟨by decide, by decide⟩, by simp [scattered, Model.slices], by decide⟩
  obtain ⟨groups, -, -, -, -, -, -, -, hsources, -, hall⟩ := hgroups text htext
  exact ⟨hperm, hsame, text, htext, groups, hsources, hall⟩

end Emission

end EventFlow
