import EventFlow.Proofs.Project.Accounting

/-! The model of a project is well formed.

A file is merged only if it agrees with what is there.  Of two definitions of one message the first
is kept, and the second is of the same kind, so whatever refers to the one may refer to the other:

    known.WellFormed → m.WellFormed → ¬ known.Conflicts m → (merged [known, m]).WellFormed

Compiling a file merges its model or leaves the merge as it is (`compileFile_merge`), so a run over
any files ends with a model that fits together. -/

namespace EventFlow

variable {config : Config} {o' o : Outcome}

/-! ## Two models -/

section Two

variable {α : Type} (name : α → String) {xs ys : List α} {x : α}

theorem mem_firstOf_left (h : (xs.map name).Nodup) (hx : x ∈ xs) :
    x ∈ firstOf name (xs ++ ys) := by
  rw [firstOf_append, firstOf_eq_self name xs h]
  exact List.mem_append_left _ hx

theorem mem_firstOf_right (h : (ys.map name).Nodup) (hx : x ∈ ys) (hnew : name x ∉ xs.map name) :
    x ∈ firstOf name (xs ++ ys) := by
  rw [firstOf_append, firstOf_eq_self name ys h]
  exact List.mem_append_right _ (List.mem_filter.2 ⟨hx, by simpa using hnew⟩)

theorem mem_of_mem_firstOf (h : x ∈ firstOf name xs) : x ∈ xs := by
  induction xs with
  | nil => exact h
  | cons y xs ih =>
    rw [firstOf, List.mem_cons] at h
    rcases h with rfl | h
    · exact List.mem_cons_self
    · exact List.mem_cons_of_mem y (ih (List.mem_filter.1 h).1)

end Two

namespace Model

variable {known m : Model}

theorem messages_merged (known m : Model) :
    (merged [known, m]).messages = firstOf (·.name) (known.messages ++ m.messages) := by
  simp [merged]

theorem integrations_merged (known m : Model) :
    (merged [known, m]).integrations =
      firstOf (·.name) (known.integrations ++ m.integrations) := by
  simp [merged]

theorem flows_merged (known m : Model) : (merged [known, m]).flows = known.flows ++ m.flows := by
  simp [merged]

theorem merged_singleton (h : (m.messages.map (·.name)).Nodup)
    (hi : (m.integrations.map (·.name)).Nodup) : merged [m] = m := by
  simp [merged, firstOf_eq_self _ _ h, firstOf_eq_self _ _ hi]

/-- Messages that agree are of one kind. -/
theorem kind_eq_of_same {a b : Message} (h : a.same b = true) : a.kind = b.kind := by
  simp only [Message.same, Bool.and_eq_true, beq_iff_eq] at h
  exact h.1.1.1.2

theorem HasMessage.merged_left (h : known.WellFormed) {ref : String} {kind : MessageKind}
    (hmessage : known.HasMessage ref kind) : (merged [known, m]).HasMessage ref kind := by
  obtain ⟨n, hn, hname, hkind⟩ := hmessage
  rw [HasMessage, messages_merged]
  exact ⟨n, mem_firstOf_left _ h.messageNames hn, hname, hkind⟩

/-- A message that is dropped has one of its name and kind to stand for it. -/
theorem HasMessage.merged_right (h : known.WellFormed) (hm : m.WellFormed)
    (hagree : ¬ known.Conflicts m) {ref : String} {kind : MessageKind}
    (hmessage : m.HasMessage ref kind) : (merged [known, m]).HasMessage ref kind := by
  obtain ⟨n, hn, hname, hkind⟩ := hmessage
  by_cases hknown : n.name ∈ known.messages.map (·.name)
  · obtain ⟨k, hk, hkn⟩ := List.mem_map.1 hknown
    have hsame : k.same n = true := by
      by_contra hdiffers
      exact hagree (.inr (.inl ⟨n, hn, k, hk, hkn, by simpa using hdiffers⟩))
    exact merged_left h ⟨k, hk, hkn.trans hname, (kind_eq_of_same hsame).trans hkind⟩
  · rw [HasMessage, messages_merged]
    exact ⟨n, mem_firstOf_right _ hm.messageNames hn hknown, hname, hkind⟩

theorem HasIntegration.merged_left (h : known.WellFormed) {name : String}
    (hintegration : known.HasIntegration name) : (merged [known, m]).HasIntegration name := by
  obtain ⟨i, hi, hname⟩ := hintegration
  rw [HasIntegration, integrations_merged]
  exact ⟨i, mem_firstOf_left _ h.integrationNames hi, hname⟩

theorem HasIntegration.merged_right (h : known.WellFormed) (hm : m.WellFormed) {name : String}
    (hintegration : m.HasIntegration name) : (merged [known, m]).HasIntegration name := by
  obtain ⟨i, hi, hname⟩ := hintegration
  by_cases hknown : i.name ∈ known.integrations.map (·.name)
  · obtain ⟨k, hk, hkn⟩ := List.mem_map.1 hknown
    exact merged_left h ⟨k, hk, hkn.trans hname⟩
  · rw [HasIntegration, integrations_merged]
    exact ⟨i, mem_firstOf_right _ hm.integrationNames hi hknown, hname⟩

/-- Models that do not contradict each other fit together. -/
theorem WellFormed.merged (h : known.WellFormed) (hm : m.WellFormed)
    (hagree : ¬ known.Conflicts m) : (merged [known, m]).WellFormed where
  messageNames := nodup_firstOf _ _
  integrationNames := nodup_firstOf _ _
  flowNames := by
    rw [flows_merged, List.map_append, List.nodup_append]
    refine ⟨h.flowNames, hm.flowNames, ?_⟩
    rintro a ha b hb rfl
    obtain ⟨g, hg, rfl⟩ := List.mem_map.1 ha
    obtain ⟨f, hf, hname⟩ := List.mem_map.1 hb
    exact hagree (.inl ⟨f, hf, g, hg, hname.symm⟩)
  fieldNames := by
    intro n hn
    rw [messages_merged] at hn
    rcases List.mem_append.1 (mem_of_mem_firstOf _ hn) with hn | hn
    · exact h.fieldNames n hn
    · exact hm.fieldNames n hn
  slices := by
    intro f hf s hs
    rw [flows_merged, List.mem_append] at hf
    rcases hf with hf | hf
    · exact (h.slices f hf s hs).mono (fun _ _ => HasMessage.merged_left h)
        fun _ => HasIntegration.merged_left h
    · exact (hm.slices f hf s hs).mono (fun _ _ => HasMessage.merged_right h hm hagree)
        fun _ => HasIntegration.merged_right h hm

theorem wellFormed_empty : WellFormed {} :=
  ⟨List.nodup_nil, List.nodup_nil, List.nodup_nil, by simp, by simp⟩

end Model

/-! ## Files of a project -/

namespace Project

open Extraction (extract)

theorem Merge.holds_model {merge : Merge} (h : merge.model.WellFormed) :
    merge.Holds [merge.model] :=
  (Model.merged_singleton h.messageNames h.integrationNames).symm

theorem Merge.wellFormed_add {merge : Merge} (h : merge.model.WellFormed) (path : String)
    {m : Model} (hm : m.WellFormed) (hnone : merge.conflict? m = none) :
    (merge.add path m).model.WellFormed := by
  have hholds := Merge.holds_model h
  have hagree : ¬ merge.model.Conflicts m := by
    have hiff := hholds.conflict?_ne_none m
    rw [← show merge.model = Model.merged [merge.model] from hholds] at hiff
    exact fun hconflict => hiff.2 hconflict hnone
  have hadd : (merge.add path m).model = Model.merged ([merge.model] ++ [m]) :=
    hholds.add path m hm.messageNames hm.integrationNames
  rw [hadd]
  exact h.merged hm hagree

variable {σ : Type} [Store σ]

/-- A file adds its model to the merge, or nothing. -/
theorem compileFile_merge {store : σ} {path : String} (h : compileFile config store o path = .ok o')
    :
    o'.merge = o.merge ∨ ∃ text model, extract config text = .ok model ∧
      o.merge.conflict? model = none ∧ o'.merge = o.merge.add path model := by
  cases hread : Store.read store path with
  | ok text =>
    obtain ⟨-, ⟨model, hextract, hnone, hadd, -⟩ | ⟨f, -, hsame, -⟩⟩ := compileFile_cases hread h
    · exact .inr ⟨text, model, hextract, hnone, hadd⟩
    · exact .inl hsame
  | error fault =>
    rw [compileFile, hread] at h
    cases fault <;> cases h
    exact .inl rfl

/-- What a step keeps to. -/
theorem compileFile_keeps_wellFormed {store : σ} {path : String}
    (h : compileFile config store o path = .ok o') (hw : o.model.WellFormed) :
    o'.model.WellFormed := by
  unfold Outcome.model at hw ⊢
  rcases compileFile_merge h with hsame | ⟨text, m, hextract, hnone, hadd⟩
  · rw [hsame]
    exact hw
  · rw [hadd]
    exact Merge.wellFormed_add hw path (Extraction.extract_model_wellFormed config text m hextract)
      hnone

/-- What a run keeps to, however many files there are and whichever of them fail. -/
theorem compileFiles_keeps_wellFormed {store : σ} (files : List String)
    (h : compileFiles config store o files = .ok o') (hw : o.model.WellFormed) :
    o'.model.WellFormed := by
  induction files generalizing o with
  | nil =>
    cases h
    exact hw
  | cons path rest ih =>
    unfold compileFiles at h
    split at h
    · cases h
      exact hw
    · obtain ⟨o₁, hfile, hrest⟩ := bind_eq_ok.1 h
      exact ih hrest (compileFile_keeps_wellFormed hfile hw)

/-- **The merged model is well formed.**  Names of flows, messages and integrations are distinct,
every example names a message of the kind that its place asks for, and every system an
integration. -/
theorem compile_wellFormed (config : Config) (store : σ) (root : String) (o : Outcome)
    (h : compile config store root = .ok o) : o.model.WellFormed :=
  compileFiles_keeps_wellFormed (flowFiles config store root) h Model.wellFormed_empty

/-- Two files refer to the same undeclared messages, and a third defines a flow again. -/
def sharedStubs : Memory where
  files := [("a.flow.ts", Extraction.undeclaredCommand),
    ("b.flow.ts", r"flow('G',()=>{react('R').server(()=>{" ++
      r"when([Events.E()]).then([Commands.D()]);})});"),
    ("c.flow.ts", "flow('G',()=>{});")]

theorem compile_wellFormed_sharedStubs :
    ∃ o, compile {} sharedStubs "" = .ok o ∧ o.failed = ["c.flow.ts"] ∧
      o.model.flows.map (·.name) = ["F", "G"] ∧ o.model.messages.map (·.name) = ["D", "E"] ∧
      o.model.WellFormed := by
  have hfiles : flowFiles {} sharedStubs "" = ["a.flow.ts", "b.flow.ts", "c.flow.ts"] :=
    flowFiles_eq_of_perm _ _ _ _ (by decide) (by decide)
  have h : (compile {} sharedStubs "").toOption.map (fun o => (o.failed,
      o.model.flows.map (·.name), o.model.messages.map (·.name))) =
      some (["c.flow.ts"], ["F", "G"], ["D", "E"]) := by
    rw [compile, hfiles]
    decide +kernel
  obtain ⟨o, ho, hlists⟩ := Option.map_eq_some_iff.1 h
  simp only [Prod.mk.injEq] at hlists
  have hok := toOption_eq_some ho
  exact ⟨o, hok, hlists.1, hlists.2.1, hlists.2.2, compile_wellFormed {} sharedStubs "" o hok⟩

end Project

end EventFlow
