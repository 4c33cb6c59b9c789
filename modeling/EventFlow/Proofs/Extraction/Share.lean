import EventFlow.Extraction.Model
import EventFlow.Proofs.Extraction.Answer

/-! What the statements of a program add to its model.

A statement at the top level adds integrations, or a flow, or nothing. `Adds … x s` says that it
adds just `x` to whatever is found before it, if the names are new. The model of a program is put
together from what its statements add:

    modelOf config declared program = ok ⟨the flows, declared.messages, the integrations⟩ -/

namespace EventFlow.Extraction

/-- A part of a model that one statement gives. -/
structure Share where
  integrations : List Integration := []
  flow : Option Flow := none

variable {config : Config} {names : List String} {depth : Nat} {declared : Declared}

/-- The findings with a share added to them. -/
def Findings.plus (f : Findings) (x : Share) : Findings :=
  { f with
    imported := f.imported ++ x.integrations
    flowNames := f.flowNames ++ x.flow.toList.map (·.name) }

/-- The names of a share are distinct and not found yet. -/
structure Share.IsNewTo (x : Share) (f : Findings) : Prop where
  distinct : (x.integrations.map (·.name)).Nodup
  integrations : ∀ i ∈ x.integrations, i.name ∉ f.imported.map (·.name)
  flow : ∀ y ∈ x.flow, y.name ∉ f.flowNames

/-- The statement adds the share and otherwise only refers to the given integrations. -/
def Adds (config : Config) (names : List String) (depth : Nat) (declared : Declared) (x : Share)
    (s : Statement) : Prop :=
  ∀ f, x.IsNewTo f → ∃ g, topLevel config depth declared s f = .ok (x.flow, g) ∧
    (f.plus x).Grows names g

/-! ## Imports -/

theorem importOne_eq (module : String) (texts : List (String × Option String)) {s : Specifier}
    {f : Findings} (hnew : s.localName ∉ f.imported.map (·.name)) :
    importOne module texts s f = .ok ((), { f with
      imported := f.imported ++ [⟨s.localName, module, integrationText? texts s.localName⟩] }) := by
  have hany : (f.imported.any fun i => decide (i.name = s.localName)) = false := by
    rw [Bool.eq_false_iff]
    intro hany
    obtain ⟨i, hi, hname⟩ := List.any_eq_true.1 hany
    exact hnew (of_decide_eq_true hname ▸ List.mem_map_of_mem hi)
  unfold importOne
  refine stateBind_eq_ok.2 ⟨f, f, rfl, ?_⟩
  dsimp only
  rw [if_neg (by simp [hany])]
  rfl

/-- The integrations that some specifiers stand for. -/
theorem forM_importOne {module : String} {texts : List (String × Option String)}
    {ss : List Specifier} {is : List Integration}
    (h : List.Forall₂ (fun s i => i = ⟨s.localName, module, integrationText? texts s.localName⟩)
      ss is) {f : Findings} (hnew : Share.IsNewTo { integrations := is } f) :
    ss.forM (importOne module texts) f =
      .ok ((), { f with imported := f.imported ++ is }) := by
  induction h generalizing f with
  | nil =>
    rw [List.append_nil]
    rfl
  | @cons s i ss is hi _ ih =>
    subst hi
    obtain ⟨hdistinct, hnames, -⟩ := hnew
    rw [List.map_cons, List.nodup_cons] at hdistinct
    have hfirst := importOne_eq module texts (hnames _ List.mem_cons_self)
    have hmore := ih (f := { f with imported := f.imported ++
        [⟨s.localName, module, integrationText? texts s.localName⟩] })
      ⟨hdistinct.2, fun j hj => ?_, by simp⟩
    · show (importOne module texts s >>= fun _ => ss.forM (importOne module texts)) f = _
      refine stateBind_eq_ok.2 ⟨(), _, hfirst, ?_⟩
      rw [hmore]
      simp
    · have hold := hnames j (List.mem_cons_of_mem _ hj)
      have hother : j.name ≠ s.localName := fun heq =>
        hdistinct.1 (List.mem_map.2 ⟨j, hj, heq⟩)
      simpa [hother] using hold

/-- An import of integrations adds them. -/
theorem adds_imports {line : Nat} {content : Import} {doc : Option String} {is : List Integration}
    (h : List.Forall₂ (fun s i => i = ⟨s.localName, content.module,
      integrationText? (integrationTexts doc) s.localName⟩) (integrationNames config content) is) :
    Adds config names depth declared { integrations := is } (.imports line content doc) := by
  intro f hnew
  refine ⟨{ f with imported := f.imported ++ is }, ?_, ?_⟩
  · unfold topLevel
    exact stateBind_eq_ok.2 ⟨(), _, forM_importOne h hnew, rfl⟩
  · exact ⟨rfl, rfl, by simp [Findings.plus], fun n hn => Or.inl hn⟩

/-- An import of what is no integration adds nothing. -/
theorem adds_imports_nothing {line : Nat} {content : Import} {doc : Option String}
    (h : integrationNames config content = []) :
    Adds config names depth declared {} (.imports line content doc) :=
  adds_imports (by rw [h]; exact .nil)

theorem adds_binding (line : Nat) (keyword : String) (bound : List String) (init : Option Expr)
    (doc : Option String) :
    Adds config names depth declared {} (.binding line keyword bound init doc) :=
  fun f _ => ⟨f, rfl, by simp [Findings.plus], rfl, by simp [Findings.plus], fun n hn => Or.inl hn⟩

/-! ## Programs -/

/-- All integrations of some shares. -/
def allIntegrations (xs : List Share) : List Integration := xs.flatMap (·.integrations)

/-- All flows of some shares. -/
def allFlows (xs : List Share) : List Flow := xs.filterMap (·.flow)

theorem allFlows_cons (x : Share) (xs : List Share) :
    allFlows (x :: xs) = x.flow.toList ++ allFlows xs := by
  unfold allFlows
  cases h : x.flow <;> simp [h]

/-- The statements of a program add their shares one after the other. -/
theorem mapM_topLevel {ss : List Statement} {xs : List Share}
    (h : List.Forall₂ (fun s x => Adds config names depth declared x s) ss xs) {f : Findings}
    (hnew : Share.IsNewTo { integrations := allIntegrations xs } f)
    (hflows : ((allFlows xs).map (·.name)).Nodup)
    (hfresh : ∀ y ∈ allFlows xs, y.name ∉ f.flowNames) :
    ∃ g, ss.mapM (topLevel config depth declared) f = .ok (xs.map (·.flow), g) ∧
      g.imported = f.imported ++ allIntegrations xs ∧ g.stubs = f.stubs ∧
      ∀ n ∈ g.systems, n ∈ f.systems ∨ n ∈ names := by
  induction h generalizing f with
  | nil => exact ⟨f, rfl, by simp [allIntegrations], rfl, fun n hn => Or.inl hn⟩
  | @cons s x ss xs hs _ ih =>
    obtain ⟨hdistinct, hnames, -⟩ := hnew
    have hall : allIntegrations (x :: xs) = x.integrations ++ allIntegrations xs :=
      List.flatMap_cons
    simp only [hall, List.map_append, List.nodup_append] at hdistinct
    simp only [hall, List.mem_append] at hnames
    simp only [allFlows_cons, List.map_append, List.nodup_append] at hflows
    simp only [allFlows_cons, List.mem_append] at hfresh
    obtain ⟨g, hg, hgrows⟩ := hs f ⟨hdistinct.1, fun i hi => hnames i (Or.inl hi),
      fun y hy => hfresh y (Or.inl (Option.mem_toList.2 hy))⟩
    have himported : g.imported = f.imported ++ x.integrations := hgrows.imported
    have hflowNames : g.flowNames = f.flowNames ++ x.flow.toList.map (·.name) := hgrows.flowNames
    have hnew : Share.IsNewTo { integrations := allIntegrations xs } g := by
      refine ⟨hdistinct.2.1, fun i hi hmem => ?_, by simp⟩
      rw [himported, List.map_append, List.mem_append] at hmem
      rcases hmem with hmem | hmem
      · exact hnames i (Or.inr hi) hmem
      · exact hdistinct.2.2 _ hmem _ (List.mem_map_of_mem hi) rfl
    have hlater : ∀ y ∈ allFlows xs, y.name ∉ g.flowNames := by
      intro y hy hmem
      rw [hflowNames, List.mem_append] at hmem
      rcases hmem with hmem | hmem
      · exact hfresh y (Or.inr hy) hmem
      · exact hflows.2.2 _ hmem _ (List.mem_map_of_mem hy) rfl
    obtain ⟨g', hg', himported', hstubs', hsystems'⟩ := ih hnew hflows.2.1 hlater
    refine ⟨g', ?_, ?_, hstubs'.trans hgrows.stubs, fun n hn => ?_⟩
    · rw [List.mapM_cons]
      refine stateBind_eq_ok.2 ⟨x.flow, g, hg, ?_⟩
      exact stateBind_eq_ok.2 ⟨_, g', hg', rfl⟩
    · rw [himported', himported, hall, List.append_assoc]
    · rcases hsystems' n hn with hn | hn
      · exact hgrows.systems n hn
      · exact Or.inr hn

/-- The model of a program is what its statements add, with the messages that are declared. -/
theorem modelOf_adds {ss : List Statement} {xs : List Share}
    (h : List.Forall₂ (fun s x => Adds config names config.nestingLimit declared x s) ss xs)
    (hintegrations : ((allIntegrations xs).map (·.name)).Nodup)
    (hflows : ((allFlows xs).map (·.name)).Nodup)
    (hnames : ∀ n ∈ names, n ∈ (allIntegrations xs).map (·.name)) :
    modelOf config declared ss = .ok ⟨allFlows xs, declared.messages, allIntegrations xs⟩ := by
  obtain ⟨g, hg, himported, hstubs, hsystems⟩ := mapM_topLevel h (f := {})
    ⟨hintegrations, by simp, by simp⟩ hflows (by simp)
  rw [List.nil_append] at himported
  have hfound : g.integrations = allIntegrations xs := by
    have hfilter : g.systems.filter
        (fun name => !((allIntegrations xs).map (·.name)).contains name) = [] := by
      rw [List.filter_eq_nil_iff]
      intro n hn
      rcases hsystems n hn with hn | hn
      · cases hn
      · simpa using hnames n hn
    unfold Findings.integrations
    dsimp only
    rw [himported, hfilter, List.map_nil, List.append_nil]
  have hread : flowsOf config config.nestingLimit declared ss {} = .ok (allFlows xs, g) := by
    unfold flowsOf
    refine stateBind_eq_ok.2 ⟨_, g, hg, ?_⟩
    rw [List.filterMap_map]
    rfl
  rw [modelOf, hread]
  dsimp only
  rw [hfound, hstubs, List.append_nil]

end EventFlow.Extraction
