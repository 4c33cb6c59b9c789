import EventFlow.Extraction.Entry
import EventFlow.Extraction.Spec
import EventFlow.Proofs.Bind

/-! What a walk through a program keeps.

Findings only grow: a message that is known to be of some kind stays so, and a system that has been
named stays named (`Findings.Extends`).  Stubs, systems, imports and flow names stay distinct
(`Findings.Sound`).  Every step below the top level is such an extension, so what an example or a
pipeline entry says of the findings when it is read still holds of them at the end. -/

namespace EventFlow

variable {declared : Declared} {α : Type} (stub : Message)

/-! ## Members of an object -/

namespace Json

theorem map_fst_set (key : String) (value : Json) (ms : Members) :
    (set key value ms).map (·.1) =
      if key ∈ ms.map (·.1) then ms.map (·.1) else ms.map (·.1) ++ [key] := by
  induction ms with
  | nil => simp [set]
  | cons m rest ih =>
    obtain ⟨k, v⟩ := m
    unfold set
    by_cases h : k = key
    · simp [h]
    · have hne : key ≠ k := fun e => h e.symm
      by_cases hm : key ∈ rest.map (·.1)
      · simp only [hm, if_true] at ih
        simp_all
      · simp only [hm, if_false] at ih
        simp_all

theorem nodup_set (key : String) (value : Json) (ms : Members) (h : (ms.map (·.1)).Nodup) :
    ((set key value ms).map (·.1)).Nodup := by
  rw [map_fst_set]
  split
  · exact h
  · next hm => exact nodup_concat _ _ h hm

/-- Every name stands once in an object. -/
theorem nodup_ofPairs (pairs : Members) : ((ofPairs pairs).map (·.1)).Nodup := by
  have key : ∀ ms : Members, (ms.map (·.1)).Nodup →
      ((pairs.foldl (fun members p => set p.1 p.2 members) ms).map (·.1)).Nodup := by
    induction pairs with
    | nil => intro ms h; exact h
    | cons p rest ih =>
      intro ms h
      exact ih _ (nodup_set p.1 p.2 ms h)
  exact key [] (by simp)

end Json

namespace Extraction

/-! ## Stubs -/

theorem map_name_noteStub (ms : List Message) :
    (noteStub stub ms).map (·.name) =
      if stub.name ∈ ms.map (·.name) then ms.map (·.name) else ms.map (·.name) ++ [stub.name] := by
  induction ms with
  | nil => simp [noteStub]
  | cons m rest ih =>
    unfold noteStub
    by_cases h : m.name = stub.name
    · rw [if_pos h]
      split <;> simp [h]
    · have hne : stub.name ≠ m.name := fun e => h e.symm
      rw [if_neg h, List.map_cons, ih]
      by_cases hm : stub.name ∈ rest.map (·.name)
      · rw [if_pos hm, if_pos (by simp [hm])]
        rfl
      · rw [if_neg hm, if_neg (by simpa [hne] using hm)]
        simp

theorem mem_noteStub (ms : List Message) (x : Message) (h : x ∈ noteStub stub ms) :
    x = stub ∨ x ∈ ms := by
  induction ms with
  | nil =>
    simp only [noteStub, List.mem_singleton] at h
    exact Or.inl h
  | cons m rest ih =>
    unfold noteStub at h
    split at h
    · split at h <;> rcases List.mem_cons.1 h with rfl | h <;> simp_all
    · rcases List.mem_cons.1 h with rfl | h
      · simp
      · rcases ih h with h | h <;> simp [h]

/-- A stub is kept under its name, whichever of the two is the richer one. -/
theorem find?_noteStub_self (ms : List Message)
    (h : ∀ m, ms.find? (·.name = stub.name) = some m → m.kind = stub.kind) :
    ((noteStub stub ms).find? (·.name = stub.name)).map (·.kind) = some stub.kind := by
  induction ms with
  | nil => simp [noteStub]
  | cons m rest ih =>
    unfold noteStub
    by_cases hn : m.name = stub.name
    · have hk : m.kind = stub.kind := h m (by simp [hn])
      rw [if_pos hn]
      split <;> simp [hn, hk]
    · rw [if_neg hn, List.find?_cons_of_neg (by simpa using hn)]
      exact ih (fun x hx => h x (by rw [List.find?_cons_of_neg (by simpa using hn)]; exact hx))

theorem find?_noteStub_ne (ms : List Message) (ref : String) (hne : ref ≠ stub.name) :
    (noteStub stub ms).find? (·.name = ref) = ms.find? (·.name = ref) := by
  induction ms with
  | nil => simp [noteStub, hne.symm]
  | cons m rest ih =>
    unfold noteStub
    by_cases hn : m.name = stub.name
    · have hm : m.name ≠ ref := fun e => hne (e ▸ hn)
      rw [if_pos hn]
      split <;> simp [hm, hne.symm]
    · rw [if_neg hn]
      by_cases hm : m.name = ref
      · rw [List.find?_cons_of_pos (by simpa using hm), List.find?_cons_of_pos (by simpa using hm)]
      · rw [List.find?_cons_of_neg (by simpa using hm), List.find?_cons_of_neg (by simpa using hm)]
        exact ih

/-! ## Findings -/

/-- The message of that name is known to be of that kind. -/
def Known (declared : Declared) (f : Findings) (ref : String) (kind : MessageKind) : Prop :=
  knownKind? declared f.stubs ref = some kind

/-- Nothing is found twice, and no stub stands beside a declaration. -/
structure Findings.Sound (declared : Declared) (f : Findings) : Prop where
  stubs : (f.stubs.map (·.name)).Nodup
  apart : ∀ m ∈ f.stubs, declared.message? m.name = none
  fields : ∀ m ∈ f.stubs, (m.fields.map (·.name)).Nodup
  systems : f.systems.Nodup
  imported : (f.imported.map (·.name)).Nodup
  flowNames : f.flowNames.Nodup

/-- What a step below the top level does to the findings. -/
structure Findings.Extends (declared : Declared) (f g : Findings) : Prop where
  sound : f.Sound declared → g.Sound declared
  known : ∀ ref kind, Known declared f ref kind → Known declared g ref kind
  systems : ∀ name ∈ f.systems, name ∈ g.systems
  imported : g.imported = f.imported
  flowNames : g.flowNames = f.flowNames

theorem Findings.Extends.refl (declared : Declared) (f : Findings) : f.Extends declared f :=
  ⟨id, fun _ _ h => h, fun _ h => h, rfl, rfl⟩

theorem Findings.Extends.trans {f g h : Findings} (hfg : f.Extends declared g)
    (hgh : g.Extends declared h) : f.Extends declared h where
  sound hf := hgh.sound (hfg.sound hf)
  known ref kind hk := hgh.known ref kind (hfg.known ref kind hk)
  systems name hn := hgh.systems name (hfg.systems name hn)
  imported := hgh.imported.trans hfg.imported
  flowNames := hgh.flowNames.trans hfg.flowNames

/-! ## Sequences of steps -/

/-- A property of what a step yields that more findings do not spoil. -/
def Lasting (declared : Declared) (P : α → Findings → Prop) : Prop :=
  ∀ a f g, f.Extends declared g → P a f → P a g

/-- What a step yields: it extends the findings, and its result has a property. -/
def Yields (declared : Declared) (w : Walk α) (P : α → Findings → Prop) : Prop :=
  ∀ f a g, w f = .ok (a, g) → f.Extends declared g ∧ P a g

theorem Yields.mapM {β : Type} {P : β → Findings → Prop} (hP : Lasting declared P) (w : α → Walk β)
    (xs : List α) (hw : ∀ x ∈ xs, Yields declared (w x) P) :
    Yields declared (xs.mapM w) (fun bs g => ∀ b ∈ bs, P b g) := by
  induction xs with
  | nil =>
    intro f bs g h
    rw [List.mapM_nil, statePure_eq_ok] at h
    obtain ⟨rfl, rfl⟩ := h
    exact ⟨.refl _ _, by simp⟩
  | cons x rest ih =>
    intro f bs g h
    rw [List.mapM_cons, stateBind_eq_ok] at h
    obtain ⟨b, u, hb, h⟩ := h
    obtain ⟨bs', v, hbs, h⟩ := stateBind_eq_ok.1 h
    obtain ⟨rfl, rfl⟩ := statePure_eq_ok.1 h
    obtain ⟨hfu, hPb⟩ := hw x (by simp) f b u hb
    obtain ⟨huv, hPbs⟩ := ih (fun y hy => hw y (by simp [hy])) u bs' v hbs
    refine ⟨hfu.trans huv, ?_⟩
    intro c hc
    rcases List.mem_cons.1 hc with rfl | hc
    · exact hP _ _ _ huv hPb
    · exact hPbs c hc

/-- A fold whose every step keeps a property of the result so far. -/
theorem Yields.foldlM {δ : Type} {P : δ → Findings → Prop} (hP : Lasting declared P)
    {w : δ → α → Walk δ} {xs : List α}
    (hw : ∀ d x, Yields declared (w d x) fun d' g => P d g → P d' g) {d d' : δ} {f g : Findings}
    (h : xs.foldlM w d f = .ok (d', g)) (hd : P d f) : f.Extends declared g ∧ P d' g := by
  induction xs generalizing d f with
  | nil =>
    rw [List.foldlM_nil, statePure_eq_ok] at h
    obtain ⟨rfl, rfl⟩ := h
    exact ⟨.refl _ _, hd⟩
  | cons x rest ih =>
    rw [List.foldlM_cons, stateBind_eq_ok] at h
    obtain ⟨e, u, he, h⟩ := h
    obtain ⟨hfu, hkeep⟩ := hw d x f e u he
    obtain ⟨hug, hPd⟩ := ih h (hkeep (hP _ _ _ hfu hd))
    exact ⟨hfu.trans hug, hPd⟩

end Extraction

end EventFlow
