import EventFlow.Extraction.Model
import EventFlow.Proofs.Declaration.Table
import EventFlow.Proofs.Extraction.Parts
import EventFlow.Proofs.Model.Report

/-! Every model that a flow file describes is well formed.

    extract config source = ok m  →  m.WellFormed, and the report on m finds nothing amiss

Messages are the declared ones and the stubs, integrations the imported ones and those that are
only referred to.  Both are complete when the last statement has been read, and no step on the way
takes back what the steps before it have relied on. -/

namespace EventFlow.Extraction

theorem sound_start (declared : Declared) : ({} : Findings).Sound declared :=
  ⟨by simp, by simp, by simp, by simp, by simp, by simp⟩

/-- A message that is known is among the declared ones and the stubs. -/
theorem Known.mem {declared : Declared} {f : Findings} {ref : String} {kind : MessageKind}
    (h : Known declared f ref kind) :
    ∃ n ∈ declared.messages ++ f.stubs, n.name = ref ∧ n.kind = kind := by
  unfold Known knownKind? at h
  cases hm : declared.message? ref with
  | some m =>
    simp only [hm, Option.some.injEq] at h
    have hname : m.name = ref := by simpa using List.find?_some hm
    exact ⟨m, List.mem_append_left _ (List.mem_of_find?_eq_some hm), hname, h⟩
  | none =>
    simp only [hm, Option.map_eq_some_iff] at h
    obtain ⟨m, hf, hk⟩ := h
    have hname : m.name = ref := by simpa using List.find?_some hf
    exact ⟨m, List.mem_append_right _ (List.mem_of_find?_eq_some hf), hname, hk⟩

/-- No stub has the name of a declared message. -/
theorem nodup_messages (declared : Declared) (f : Findings)
    (hd : (declared.messages.map (·.name)).Nodup) (hf : f.Sound declared) :
    ((declared.messages ++ f.stubs).map (·.name)).Nodup := by
  rw [List.map_append, List.nodup_append]
  refine ⟨hd, hf.stubs, ?_⟩
  intro a ha b hb e
  obtain ⟨m, hm, rfl⟩ := List.mem_map.1 ha
  obtain ⟨n, hn, rfl⟩ := List.mem_map.1 hb
  have hnone := hf.apart n hn
  unfold Declared.message? at hnone
  exact List.find?_eq_none.1 hnone m hm (by simpa using e)

theorem map_name_integrations (f : Findings) :
    f.integrations.map (·.name) = f.imported.map (·.name) ++
      f.systems.filter (fun name => !(f.imported.map (·.name)).contains name) := by
  unfold Findings.integrations
  dsimp only
  rw [List.map_append, List.map_map]
  congr 1
  exact List.map_id _

theorem nodup_integrations (declared : Declared) (f : Findings) (hf : f.Sound declared) :
    (f.integrations.map (·.name)).Nodup := by
  rw [map_name_integrations, List.nodup_append]
  refine ⟨hf.imported, hf.systems.filter _, ?_⟩
  rintro a ha b hb rfl
  have := (List.mem_filter.1 hb).2
  simp only [Bool.not_eq_true', List.contains_eq_mem, decide_eq_false_iff_not] at this
  exact this ha

/-- Every system that is named has an integration. -/
theorem mem_integrations (f : Findings) (name : String) (h : name ∈ f.systems) :
    ∃ i ∈ f.integrations, i.name = name := by
  have : name ∈ f.integrations.map (·.name) := by
    rw [map_name_integrations, List.mem_append]
    by_cases hi : name ∈ f.imported.map (·.name)
    · exact Or.inl hi
    · exact Or.inr (List.mem_filter.2 ⟨h, by simpa using hi⟩)
  simpa using this

theorem modelOf_wellFormed (config : Config) (declared : Declared) (program : List Statement)
    (m : Model) (hd : Declaration.DistinctNames declared.messages)
    (h : modelOf config declared program = .ok m) : m.WellFormed := by
  obtain ⟨flows, f, hflows, rfl⟩ := exists_of_modelOf h
  obtain ⟨hcont, hfits⟩ := flowsOf_continues config _ program _ f flows hflows
  have hf := hcont.sound (sound_start declared)
  refine ⟨nodup_messages declared f hd.1 hf, ?_, nodup_integrations declared f hf, ?_, ?_⟩
  · have hnames : f.flowNames = flows.map (·.name) := by simpa using hcont.flowNames
    exact hnames ▸ hf.flowNames
  · intro n hn
    rcases List.mem_append.1 hn with hn | hn
    · exact hd.2 n hn
    · exact hf.fields n hn
  · intro flow hflow s hs
    exact (hfits flow hflow s hs).mono (fun _ _ hk => hk.mem) (mem_integrations f)

theorem extract_model_wellFormed (config : Config) (source : String) (m : Model)
    (h : extract config source = .ok m) : m.WellFormed := by
  obtain ⟨declared, program, htable, -, h⟩ := exists_of_extract h
  exact modelOf_wellFormed config declared program m (Declaration.table_distinct _ _ _ _ htable) h

/-- **A model that has been extracted is well formed**, so the report on it names no message or
flow twice, no reference or system that is not there, and no block in the wrong shape. -/
theorem extract_wellFormed (config : Config) (source : String) (m : Model)
    (h : extract config source = .ok m) :
    m.WellFormed ∧ ∃ r, m.report? = some r ∧ r.duplicateMessages = [] ∧ r.duplicateFlows = [] ∧
      r.undefinedReferences = [] ∧ r.undefinedIntegrations = [] ∧ r.shapeMismatches = [] :=
  have hm := extract_model_wellFormed config source m h
  ⟨hm, hm.report⟩

/-- A command whose two messages are nowhere declared. -/
def undeclaredCommand : String :=
  r"flow('F',()=>{command('C').server(()=>{when(Commands.D()).then([Events.E()]);})});"

theorem extract_wellFormed_undeclared :
    ∃ m, extract {} undeclaredCommand = .ok m ∧ m.messages.map (·.name) = ["D", "E"] ∧
      m.WellFormed := by
  have h : (extract {} undeclaredCommand).toOption.map (fun m => m.messages.map (·.name)) =
      some ["D", "E"] := by decide +kernel
  obtain ⟨m, hm, hnames⟩ := Option.map_eq_some_iff.1 h
  have hok := toOption_eq_some hm
  exact ⟨m, hok, hnames, (extract_wellFormed {} undeclaredCommand m hok).1⟩

end EventFlow.Extraction
