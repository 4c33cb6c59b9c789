import EventFlow.Project.Merge

/-! What a merge holds after several models.

    flows         the flows of all models, one after the other
    messages      of each name the first, in order
    integrations  of each name the first, in order

`Model.merged` says so without paths and without a running state; `Merge.model_add` shows that
adding a model keeps to it, and `Merge.conflict?_eq_none` that the merge refuses exactly the models
that contradict it. -/

namespace EventFlow

/-! ## The first of each name -/

section FirstOf

variable {α : Type} (name : α → String)

/-- The items with those left out whose name has come up before. -/
def firstOf : List α → List α
  | [] => []
  | x :: xs => x :: (firstOf xs).filter fun y => name y ≠ name x

theorem mem_map_firstOf (n : String) (xs : List α) :
    n ∈ (firstOf name xs).map name ↔ n ∈ xs.map name := by
  induction xs with
  | nil => simp [firstOf]
  | cons x xs ih =>
    by_cases hn : n = name x
    · simp [firstOf, hn]
    · simp only [List.mem_map] at ih
      simp only [firstOf, List.map_cons, List.mem_cons, List.mem_map, List.mem_filter]
      grind

theorem nodup_firstOf (xs : List α) : ((firstOf name xs).map name).Nodup := by
  induction xs with
  | nil => simp [firstOf]
  | cons x xs ih =>
    rw [firstOf, List.map_cons, List.nodup_cons]
    refine ⟨by simp, ?_⟩
    exact ih.sublist (List.filter_sublist.map name)

/-- Looking up a name finds its first item. -/
theorem find?_firstOf (n : String) (xs : List α) :
    (firstOf name xs).find? (fun x => name x = n) = xs.find? fun x => name x = n := by
  induction xs with
  | nil => rfl
  | cons x xs ih =>
    rw [firstOf, List.find?_cons, List.find?_cons]
    by_cases hn : name x = n
    · simp [hn]
    · simp only [hn, decide_false, List.find?_filter]
      rw [← ih]
      congr 1
      funext y
      by_cases hy : name y = n
      · simp [hy, Ne.symm hn]
      · simp [hy]

theorem firstOf_append (xs ys : List α) :
    firstOf name (xs ++ ys) =
      firstOf name xs ++ (firstOf name ys).filter fun y => !(xs.map name).contains (name y) := by
  induction xs with
  | nil => exact (List.filter_eq_self.2 (by simp)).symm
  | cons x xs ih =>
    rw [List.cons_append, firstOf, firstOf, ih, List.filter_append, List.filter_filter,
      List.cons_append]
    congr 3
    funext y
    by_cases hy : name y = name x <;> simp [hy]

theorem firstOf_eq_self (xs : List α) (h : (xs.map name).Nodup) : firstOf name xs = xs := by
  induction xs with
  | nil => rfl
  | cons x xs ih =>
    rw [List.map_cons, List.nodup_cons] at h
    rw [firstOf, ih h.2, List.filter_eq_self.2]
    intro y hy
    simp only [decide_eq_true_eq]
    intro e
    exact h.1 (e ▸ List.mem_map_of_mem hy)

end FirstOf

/-- An item is the one that its name finds, if names are distinct. -/
theorem find?_eq_some_of_nodup {α : Type} (name : α → String) (xs : List α) (x : α)
    (h : (xs.map name).Nodup) (hx : x ∈ xs) :
    xs.find? (fun y => name y = name x) = some x := by
  induction xs with
  | nil => cases hx
  | cons y ys ih =>
    rw [List.map_cons, List.nodup_cons] at h
    rw [List.find?_cons]
    rcases List.mem_cons.1 hx with rfl | hx
    · simp
    · have hne : name y ≠ name x := fun e => h.1 (e ▸ List.mem_map_of_mem hx)
      simp only [hne, decide_false]
      exact ih h.2 hx

/-! ## Models -/

namespace Model

/-- The models as one: of each message and integration, the first definition. -/
def merged (ms : List Model) : Model where
  flows := ms.flatMap (·.flows)
  messages := firstOf (·.name) (ms.flatMap (·.messages))
  integrations := firstOf (·.name) (ms.flatMap (·.integrations))

/-- A flow of the same name, or a message or an integration of the same name that differs. -/
def Conflicts (known m : Model) : Prop :=
  (∃ f ∈ m.flows, ∃ g ∈ known.flows, g.name = f.name) ∨
  (∃ n ∈ m.messages, ∃ k ∈ known.messages, k.name = n.name ∧ k.same n = false) ∨
  ∃ i ∈ m.integrations, ∃ k ∈ known.integrations, k.name = i.name ∧ k ≠ i

end Model

namespace Project.Merge

/-- A merge that holds the given models. -/
def Holds (m : Merge) (ms : List Model) : Prop := m.model = Model.merged ms

/-- The items that a merge adds are those whose names it does not have. -/
theorem add_items {α : Type} (name : α → String) (known : List (α × String)) (xs new : List α)
    (path : String) (hknown : known.map (·.1) = firstOf name xs) (hnew : (new.map name).Nodup) :
    (known ++ (new.filter fun x => (known.find? fun p => name p.1 = name x).isNone).map
      (·, path)).map (·.1) = firstOf name (xs ++ new) := by
  have hfind : ∀ x, (known.find? fun p => name p.1 = name x).isNone =
      !(xs.map name).contains (name x) := by
    intro x
    have hmem := mem_map_firstOf name (name x) xs
    rw [← hknown, List.map_map] at hmem
    rw [Bool.eq_iff_iff, Option.isNone_iff_eq_none, List.find?_eq_none]
    simp only [Bool.not_eq_true', List.contains_eq_mem, decide_eq_false_iff_not, ← hmem]
    simp only [decide_eq_true_eq, List.mem_map, Function.comp_apply, not_exists, not_and]
  rw [firstOf_append, firstOf_eq_self name new hnew, List.map_append, List.map_map, hknown]
  simp only [hfind]
  congr 1
  exact List.map_id _

theorem Holds.add {m : Merge} {ms : List Model} (h : m.Holds ms) (path : String) (model : Model)
    (hn : (model.messages.map (·.name)).Nodup) (hi : (model.integrations.map (·.name)).Nodup) :
    (m.add path model).Holds (ms ++ [model]) := by
  have hf : m.flows.map (·.1) = ms.flatMap (·.flows) := congrArg Model.flows h
  have hm : m.messages.map (·.1) = firstOf (·.name) (ms.flatMap (·.messages)) :=
    congrArg Model.messages h
  have his : m.integrations.map (·.1) = firstOf (·.name) (ms.flatMap (·.integrations)) :=
    congrArg Model.integrations h
  show Model.mk _ _ _ = Model.mk _ _ _
  rw [Model.mk.injEq]
  refine ⟨?_, ?_, ?_⟩
  · show (m.flows ++ model.flows.map (·, path)).map (·.1) = _
    rw [List.map_append, hf, List.flatMap_append, List.map_map, List.flatMap_singleton]
    congr 1
    exact List.map_id _
  · rw [List.flatMap_append, List.flatMap_singleton]
    exact add_items (fun n : Message => n.name) m.messages _ model.messages path hm hn
  · rw [List.flatMap_append, List.flatMap_singleton]
    exact add_items (fun i : Integration => i.name) m.integrations _ model.integrations path his hi

/-! ## Conflicts -/

theorem flowConflict?_ne_none (m : Merge) (f : Flow) :
    m.flowConflict? f ≠ none ↔ ∃ g ∈ m.model.flows, g.name = f.name := by
  unfold flowConflict? flow?
  rw [ne_eq, Option.map_eq_none_iff, List.find?_eq_none]
  simp [model]

theorem messageConflict?_eq (m : Merge) (n : Message) :
    m.messageConflict? n = (m.messages.find? (·.1.name = n.name)).bind fun p =>
      if p.1.same n then none else some (.message n.name p.2) := by
  unfold messageConflict? message?
  cases m.messages.find? (·.1.name = n.name) <;> rfl

theorem integrationConflict?_eq (m : Merge) (i : Integration) :
    m.integrationConflict? i = (m.integrations.find? (·.1.name = i.name)).bind fun p =>
      if p.1 = i then none else some (.integration i.name p.2) := by
  unfold integrationConflict? integration?
  cases m.integrations.find? (·.1.name = i.name) <;> rfl

/-- Messages and integrations alike: a conflict is an item of the same name that does not agree. -/
theorem differs_iff {α γ : Type} (name : α → String) (agree : α → α → Prop)
    [∀ a b, Decidable (agree a b)] (conflict : String → γ) (known : List (α × String)) (x : α)
    (h : ((known.map (·.1)).map name).Nodup) :
    ((known.find? fun p => name p.1 = name x).bind fun p =>
      if agree p.1 x then none else some (conflict p.2)) ≠ none ↔
    ∃ k ∈ known.map (·.1), name k = name x ∧ ¬ agree k x := by
  cases hf : known.find? (fun p => name p.1 = name x) with
  | none =>
    have hnone : ∀ k ∈ known.map (·.1), name k ≠ name x := by
      simpa [List.find?_eq_none] using hf
    simp only [Option.bind_none, ne_eq, not_true_eq_false, false_iff]
    rintro ⟨k, hk, hname, -⟩
    exact hnone k hk hname
  | some p =>
    have hp : p.1 ∈ known.map (·.1) := List.mem_map_of_mem (List.mem_of_find?_eq_some hf)
    have hpn : name p.1 = name x := by simpa using List.find?_some hf
    -- names are distinct, so the item that was found is the only one that could differ
    have hunique : ∀ k ∈ known.map (·.1), name k = name x → k = p.1 := by
      intro k hk hname
      have h1 := find?_eq_some_of_nodup name _ k h hk
      have h2 := find?_eq_some_of_nodup name _ p.1 h hp
      rw [hname] at h1
      rw [hpn] at h2
      exact Option.some.inj (h1.symm.trans h2)
    by_cases hd : agree p.1 x
    · simp only [Option.bind_some, hd, if_true, ne_eq, not_true_eq_false, false_iff]
      rintro ⟨k, hk, hname, hne⟩
      exact hne (hunique k hk hname ▸ hd)
    · simp only [Option.bind_some, hd, if_false, ne_eq, reduceCtorEq, not_false_eq_true, true_iff]
      exact ⟨p.1, hp, hpn, hd⟩

theorem findSome?_ne_none {α γ : Type} (f : α → Option γ) (xs : List α) :
    xs.findSome? f ≠ none ↔ ∃ x ∈ xs, f x ≠ none := by
  rw [ne_eq, List.findSome?_eq_none_iff]
  simp

theorem or_ne_none {γ : Type} (x y : Option γ) : x.or y ≠ none ↔ x ≠ none ∨ y ≠ none := by
  cases x <;> simp

/-- A model is refused exactly if it contradicts what has been merged. -/
theorem Holds.conflict?_ne_none {m : Merge} {ms : List Model} (h : m.Holds ms) (model : Model) :
    m.conflict? model ≠ none ↔ (Model.merged ms).Conflicts model := by
  have hm : ((m.messages.map (·.1)).map (·.name)).Nodup := by
    rw [show m.messages.map (·.1) = firstOf (·.name) (ms.flatMap (·.messages)) from
      congrArg Model.messages h]
    exact nodup_firstOf _ _
  have hi : ((m.integrations.map (·.1)).map (·.name)).Nodup := by
    rw [show m.integrations.map (·.1) = firstOf (·.name) (ms.flatMap (·.integrations)) from
      congrArg Model.integrations h]
    exact nodup_firstOf _ _
  have hmessage : ∀ n : Message, m.messageConflict? n ≠ none ↔
      ∃ k ∈ m.model.messages, k.name = n.name ∧ k.same n = false := by
    intro n
    have := differs_iff (fun n : Message => n.name) (fun k n => k.same n = true)
      (fun path => Conflict.message n.name path) m.messages n hm
    simp only [Bool.not_eq_true] at this
    rw [messageConflict?_eq]
    exact this
  have hintegration : ∀ i : Integration, m.integrationConflict? i ≠ none ↔
      ∃ k ∈ m.model.integrations, k.name = i.name ∧ k ≠ i := by
    intro i
    rw [integrationConflict?_eq]
    exact differs_iff (fun i : Integration => i.name) (fun k i => k = i)
      (fun path => Conflict.integration i.name path) m.integrations i hi
  rw [← show m.model = Model.merged ms from h]
  unfold conflict? Model.Conflicts
  rw [or_ne_none, or_ne_none, or_assoc, findSome?_ne_none, findSome?_ne_none, findSome?_ne_none]
  simp only [flowConflict?_ne_none, hmessage, hintegration]

end Project.Merge

end EventFlow
