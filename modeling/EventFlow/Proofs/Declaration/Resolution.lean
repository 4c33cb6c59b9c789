import EventFlow.Config
import EventFlow.Proofs.Declaration.Table

/-! What references resolve to.

A reference is an alias, the name of a message, or the name of a type that declares one, and is
looked up in this order.  Whatever it is, it resolves to a declared message or stays as it is:

    d.resolve n ∈ d.messages.map name  ∨  d.resolve n = n

An alias comes first, so it hides a message of its own name if it stands for another one.  That is
the only way in which a message does not resolve to itself, and in which resolving a reference
twice is not the same as resolving it once.  It takes a message whose type is named differently:
no alias has the name of a type. -/

namespace EventFlow

/-- The name is an alias of a message of another name. -/
def Declared.Hides (d : Declared) (name : String) : Prop :=
  ∃ target, d.aliases.lookup name = some target ∧ target ≠ name

namespace Declaration

/-! ## What is read -/

/-- What is known of the declarations that have been read. -/
structure Progress.Coherent (ds : List Declaration) (p : Progress) : Prop where
  seen : ∀ d ∈ ds, d.name ∈ p.seen
  /-- Each message has a type that declares it. -/
  targets : p.types.map (·.2) = p.messages.map (·.name)
  /-- Types stand in order of declaration. -/
  types : (p.types.map (·.1)).Sublist (ds.map (·.name))
  /-- Aliases are declared, too. -/
  aliases : (p.aliases.map (·.1)).Sublist (ds.map (·.name))
  /-- No name is that of a type and of an alias. -/
  apart : ∀ n ∈ p.types.map (·.1), n ∉ p.aliases.map (·.1)

theorem coherent_start : ({} : Progress).Coherent [] :=
  ⟨by simp, rfl, by simp, by simp, by simp⟩

theorem Progress.Coherent.readOne {depth : Nat} {lines : List String} {ds : List Declaration}
    {d : Declaration} {p q : Progress} (h : readOne depth lines p d = .ok q) (hp : p.Coherent ds) :
    q.Coherent (ds ++ [d]) := by
  obtain ⟨hnew, hseen, hcases⟩ := readOne_cases h
  have hall : ∀ e ∈ ds ++ [d], e.name ∈ q.seen := by
    intro e he
    rw [hseen, List.mem_cons]
    rcases List.mem_append.1 he with he | he
    · exact Or.inr (hp.seen e he)
    · exact Or.inl (by rw [List.mem_singleton.1 he])
  -- names of types and aliases have been seen, and that of `d` has not
  have hfresh : ∀ {ns : List String}, ns.Sublist (ds.map (·.name)) → d.name ∉ ns := by
    intro ns hns hmem
    obtain ⟨e, he, hname⟩ := List.mem_map.1 (hns.subset hmem)
    exact hnew (hname ▸ hp.seen e he)
  have hlonger : ∀ {ns : List String}, ns.Sublist (ds.map (·.name)) →
      ns.Sublist ((ds ++ [d]).map (·.name)) := fun hns => by
    rw [List.map_append]
    exact hns.trans (List.sublist_append_left _ _)
  have hone : ∀ {ns : List String}, ns.Sublist (ds.map (·.name)) →
      (ns ++ [d.name]).Sublist ((ds ++ [d]).map (·.name)) := fun hns => by
    rw [List.map_append]
    exact hns.append (List.Sublist.refl _)
  rcases hcases with ⟨hm, ht, ha⟩ | ⟨target, hm, ht, ha⟩ | ⟨m, -, -, hm, ht, ha⟩
  · exact ⟨hall, by rw [hm, ht, hp.targets], by rw [ht]; exact hlonger hp.types,
      by rw [ha]; exact hlonger hp.aliases, by rw [ht, ha]; exact hp.apart⟩
  · refine ⟨hall, by rw [hm, ht, hp.targets], by rw [ht]; exact hlonger hp.types, ?_, ?_⟩
    · rw [ha, List.map_append]
      exact hone hp.aliases
    · rw [ht, ha, List.map_append]
      intro n hn hmem
      rcases List.mem_append.1 hmem with hmem | hmem
      · exact hp.apart n hn hmem
      · have hname : n = d.name := List.mem_singleton.1 hmem
        exact hfresh hp.types (hname ▸ hn)
  · refine ⟨hall, by rw [hm, ht, List.map_append, List.map_append, hp.targets]; rfl, ?_, ?_, ?_⟩
    · rw [ht, List.map_append]
      exact hone hp.types
    · rw [ha]
      exact hlonger hp.aliases
    · rw [ht, ha, List.map_append]
      intro n hn hmem
      rcases List.mem_append.1 hn with hn | hn
      · exact hp.apart n hn hmem
      · have hname : n = d.name := List.mem_singleton.1 hn
        exact hfresh hp.aliases (hname ▸ hmem)

/-! ## What aliases lead to -/

theorem mem_of_lookup {names : Names} {name target : String}
    (h : names.lookup name = some target) : (name, target) ∈ names := by
  obtain ⟨before, after, rfl, -⟩ := List.lookup_eq_some_iff.1 h
  simp

/-- A chain of aliases ends at a message, if types do. -/
theorem resolveAlias_mem {aliases types : Names} {messages : List String}
    (htypes : ∀ p ∈ types, p.2 ∈ messages) {steps : Nat} {visited : List String}
    {name target : String}
    (h : resolveAlias aliases types messages steps visited name = .ok (some target)) :
    target ∈ messages := by
  induction steps generalizing visited name with
  | zero => cases h
  | succ steps ih =>
    unfold resolveAlias at h
    split at h
    · cases h
    · split at h
      · exact ih h
      · split at h
        · next message hlookup =>
          cases h
          exact htypes _ (mem_of_lookup hlookup)
        · rw [Except.ok.injEq] at h
          split at h
          · next hmem =>
            cases h
            simpa using hmem
          · cases h

/-- The aliases that are kept are aliases that were read, and stand for messages. -/
theorem resolveAll_mem {depth : Nat} {p : Progress} {resolved : Names}
    (htypes : ∀ q ∈ p.types, q.2 ∈ p.messages.map (·.name))
    (h : resolveAll depth p = .ok resolved) :
    ∀ q ∈ resolved, q.1 ∈ p.aliases.map (·.1) ∧ q.2 ∈ p.messages.map (·.name) := by
  unfold resolveAll at h
  refine foldlM_induction (P := fun done resolved => ∀ q ∈ resolved,
    q.1 ∈ done.map (·.1) ∧ q.2 ∈ p.messages.map (·.name)) ?_ h (by simp)
  rintro done ⟨name, meant⟩ before after hstep hbefore
  have hlonger : ∀ q ∈ before, q.1 ∈ (done ++ [(name, meant)]).map (·.1) ∧
      q.2 ∈ p.messages.map (·.name) := fun q hq => by
    rw [List.map_append, List.mem_append]
    exact ⟨Or.inl (hbefore q hq).1, (hbefore q hq).2⟩
  dsimp only at hstep
  split at hstep
  · cases hstep
  · cases hstep
    exact hlonger
  · next message hresolve =>
    cases hstep
    intro q hq
    rcases List.mem_append.1 hq with hq | hq
    · exact hlonger q hq
    · rw [List.mem_singleton.1 hq]
      exact ⟨by simp, resolveAlias_mem htypes hresolve⟩

/-! ## What references lead to -/

/-- What holds of all that some declarations say. -/
structure Coherent (ds : List Declaration) (d : Declared) : Prop where
  targets : d.types.map (·.2) = d.messages.map (·.name)
  types : (d.types.map (·.1)).Sublist (ds.map (·.name))
  aliases : ∀ p ∈ d.aliases, p.2 ∈ d.messages.map (·.name)
  apart : ∀ n ∈ d.types.map (·.1), n ∉ d.aliases.map (·.1)

theorem table_coherent {depth : Nat} {lines : List String} {ds : List Declaration} {d : Declared}
    (h : table depth lines ds = .ok d) : Coherent ds d := by
  unfold table at h
  obtain ⟨p, hp, h⟩ := bind_eq_ok.1 h
  obtain ⟨aliases, haliases, h⟩ := bind_eq_ok.1 h
  cases h
  have hcoherent : p.Coherent ds := foldlM_induction (P := fun ds p => p.Coherent ds)
    (fun _ _ _ _ hread hq => hq.readOne hread) hp coherent_start
  have hmem := resolveAll_mem (fun q hq => hcoherent.targets ▸ List.mem_map_of_mem hq) haliases
  refine ⟨hcoherent.targets, hcoherent.types, fun q hq => (hmem q hq).2, fun n hn hmem' => ?_⟩
  obtain ⟨q, hq, rfl⟩ := List.mem_map.1 hmem'
  exact hcoherent.apart _ hn (hmem q hq).1

variable {ds : List Declaration} {d : Declared}

theorem message?_isSome_iff {name : String} :
    (d.message? name).isSome = true ↔ name ∈ d.messages.map (·.name) := by
  simp [Declared.message?]

theorem resolve_alias {name target : String} (h : d.aliases.lookup name = some target) :
    d.resolve name = target := by
  rw [Declared.resolve, h]

theorem resolve_message {name : String} (h : name ∈ d.messages.map (·.name))
    (hno : d.aliases.lookup name = none) : d.resolve name = name := by
  rw [Declared.resolve, hno]
  exact if_pos (message?_isSome_iff.2 h)

/-- A message resolves to itself unless an alias hides it. -/
theorem resolve_eq_self_iff {name : String} (h : name ∈ d.messages.map (·.name)) :
    d.resolve name = name ↔ ¬ d.Hides name := by
  cases hlookup : d.aliases.lookup name with
  | none =>
    refine iff_of_true (resolve_message h hlookup) ?_
    rintro ⟨target, htarget, -⟩
    cases hlookup.symm.trans htarget
  | some target =>
    rw [resolve_alias hlookup]
    refine ⟨?_, fun hno => Decidable.byContradiction fun hne => hno ⟨target, hlookup, hne⟩⟩
    rintro rfl ⟨other, hother, hne⟩
    exact hne (Option.some.inj (hother.symm.trans hlookup))

theorem Coherent.resolve_mem (h : Coherent ds d) (name : String) :
    d.resolve name ∈ d.messages.map (·.name) ∨
      (d.resolve name = name ∧ d.aliases.lookup name = none) := by
  cases hlookup : d.aliases.lookup name with
  | some target =>
    rw [resolve_alias hlookup]
    exact Or.inl (h.aliases _ (mem_of_lookup hlookup))
  | none =>
    by_cases hmessage : name ∈ d.messages.map (·.name)
    · rw [resolve_message hmessage hlookup]
      exact Or.inl hmessage
    · have hresolve : d.resolve name = (d.types.lookup name).getD name := by
        rw [Declared.resolve, hlookup]
        exact if_neg (mt message?_isSome_iff.1 hmessage)
      rw [hresolve]
      cases htype : d.types.lookup name with
      | some message =>
        rw [← h.targets]
        exact Or.inl (List.mem_map_of_mem (mem_of_lookup htype))
      | none => exact Or.inr ⟨rfl, rfl⟩

/-- Resolving twice is resolving once, unless the message that comes out is hidden. -/
theorem Coherent.resolve_resolve_iff (h : Coherent ds d) (name : String) :
    d.resolve (d.resolve name) = d.resolve name ↔ ¬ d.Hides (d.resolve name) := by
  rcases h.resolve_mem name with hmem | ⟨hself, hno⟩
  · exact resolve_eq_self_iff hmem
  · rw [hself, hself]
    refine iff_of_true rfl ?_
    rintro ⟨target, htarget, -⟩
    cases hno.symm.trans htarget

/-- A message whose type has its name is not hidden. -/
theorem Coherent.not_hides (h : Coherent ds d) {name : String} (hname : (name, name) ∈ d.types) :
    ¬ d.Hides name := by
  rintro ⟨target, hlookup, -⟩
  exact h.apart name (List.mem_map_of_mem hname) (List.mem_map_of_mem (mem_of_lookup hlookup))

/-- **What references resolve to.** A reference resolves to a declared message or stays as it is.
A declared message resolves to itself, and a reference resolved twice to the same as once, just if
no alias of its name stands for another message; a message whose type has its own name is never
hidden in this way. -/
theorem resolve_stable_iff (depth : Nat) (lines : List String) (d : Declared)
    (h : table depth lines (scan lines) = .ok d) :
    (∀ m ∈ d.messages, d.resolve m.name = m.name ↔ ¬ d.Hides m.name) ∧
      (∀ m ∈ d.messages, (m.name, m.name) ∈ d.types → d.resolve m.name = m.name) ∧
      (∀ n, d.resolve (d.resolve n) = d.resolve n ↔ ¬ d.Hides (d.resolve n)) ∧
      ∀ n, d.resolve n ∈ d.messages.map (·.name) ∨ d.resolve n = n := by
  have hcoherent := table_coherent h
  have hself : ∀ m ∈ d.messages, d.resolve m.name = m.name ↔ ¬ d.Hides m.name :=
    fun m hm => resolve_eq_self_iff (List.mem_map_of_mem hm)
  refine ⟨hself, fun m hm htype => (hself m hm).2 (hcoherent.not_hides htype),
    hcoherent.resolve_resolve_iff, fun n => ?_⟩
  exact (hcoherent.resolve_mem n).imp_right And.left

/-- Two messages under other names than their own, and an alias of the second that has the name of
the first. -/
def crossedNames : List String :=
  ["type X=Event<'A',{}>;", "type Y=Event<'B',{}>;", "type A=Y;"]

/-- The table of the crossed names. -/
def crossedTable : Declared :=
  { messages := [⟨"A", .event, [], none, 1⟩, ⟨"B", .event, [], none, 1⟩]
    types := [("X", "A"), ("Y", "B")]
    aliases := [("A", "B")] }

theorem table_crossedNames :
    table ({} : Config).nestingLimit crossedNames (scan crossedNames) = .ok crossedTable :=
  toOption_eq_some (by decide +kernel)

theorem resolve_stable_iff_crossed :
    table ({} : Config).nestingLimit crossedNames (scan crossedNames) = .ok crossedTable ∧
      ¬ crossedTable.Hides "B" ∧ crossedTable.resolve "B" = "B" ∧
      crossedTable.resolve (crossedTable.resolve "Y") = crossedTable.resolve "Y" := by
  have hall := resolve_stable_iff _ crossedNames crossedTable table_crossedNames
  have hshown : ¬ crossedTable.Hides "B" := by
    rintro ⟨target, hlookup, -⟩
    cases hlookup
  exact ⟨table_crossedNames, hshown,
    (hall.1 ⟨"B", .event, [], none, 1⟩ (by decide)).2 hshown, (hall.2.2.1 "Y").2 hshown⟩

/-- A message that is hidden by an alias does not resolve to itself, and a reference to it resolves
to another message when it is resolved twice. -/
theorem resolve_hidden :
    table ({} : Config).nestingLimit crossedNames (scan crossedNames) = .ok crossedTable ∧
      "A" ∈ crossedTable.messages.map (·.name) ∧ crossedTable.resolve "A" = "B" ∧
      crossedTable.resolve "X" = "A" ∧
      crossedTable.resolve (crossedTable.resolve "X") ≠ crossedTable.resolve "X" :=
  ⟨table_crossedNames, by decide, by decide, by decide, by decide⟩

end Declaration

end EventFlow
