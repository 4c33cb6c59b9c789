import EventFlow.Declaration.Alias
import EventFlow.Proofs.Text.Order
import Mathlib.Data.Finset.Card

/-! Chains of aliases.

From a name each alias leads to the next name, until one is reached that is no alias:

    name,  A name,  A (A name),  …        (`chainAt aliases k name`, as long as it goes on)

A resolution follows the chain (`resolveAlias_cases`).  It stops where the chain ends, or where the
chain comes to a name that was passed before.  A chain that comes back goes round for ever
(`chainAt_round`), so it does not end as well.  And the resolution does stop: the names that are
passed are different aliases, and there are only so many of them (`resolveAlias_ne_tooLong`). -/

namespace EventFlow.Declaration

/-- The name that `k` aliases, one after the other, lead to; none if the chain ends before. -/
def chainAt (aliases : Names) : (k : Nat) → (name : String) → Option String
  | 0, name => some name
  | k + 1, name => (aliases.lookup name).bind (chainAt aliases k)

/-- The chain from a name never comes to a name that is no alias. -/
def NeverEnds (aliases : Names) (name : String) : Prop :=
  ∀ k, ∃ x, chainAt aliases k name = some x ∧ x ∈ aliases.map (·.1)

/-- The chain from a name comes to `last`, which is no alias. -/
def EndsAt (aliases : Names) (name last : String) : Prop :=
  ∃ k, chainAt aliases k name = some last ∧ last ∉ aliases.map (·.1)

/-- The name is on the chain from another one. -/
def OnChain (aliases : Names) (name x : String) : Prop := ∃ k, chainAt aliases k name = some x

variable {aliases types : Names} {messages visited : List String} {name target x : String}

theorem lookup_eq_none_iff : aliases.lookup x = none ↔ x ∉ aliases.map (·.1) := by
  rw [List.lookup_eq_none_iff, List.mem_map]
  constructor
  · rintro h ⟨p, hp, rfl⟩
    exact absurd (h p hp) (by simp)
  · intro h p hp
    simpa using fun heq => h ⟨p, hp, heq.symm⟩

theorem mem_keys_of_lookup (h : aliases.lookup x = some target) : x ∈ aliases.map (·.1) := by
  by_contra hno
  rw [lookup_eq_none_iff.2 hno] at h
  cases h

/-! ## Steps along a chain -/

theorem chainAt_cons (h : aliases.lookup name = some target) (k : Nat) :
    chainAt aliases (k + 1) name = chainAt aliases k target := by
  rw [chainAt, h]
  rfl

theorem chainAt_succ (k : Nat) :
    chainAt aliases (k + 1) name = (chainAt aliases k name).bind fun x => aliases.lookup x := by
  induction k generalizing name with
  | zero => cases h : aliases.lookup name <;> simp [chainAt, h]
  | succ k ih =>
    cases h : aliases.lookup name with
    | none => simp [chainAt, h]
    | some target => rw [chainAt_cons h, chainAt_cons h, ih]

theorem chainAt_of_le {j k : Nat} (hjk : j ≤ k) (h : chainAt aliases k name = some x) :
    ∃ y, chainAt aliases j name = some y := by
  induction k, hjk using Nat.le_induction generalizing x with
  | base => exact ⟨x, h⟩
  | succ k _ ih =>
    rw [chainAt_succ] at h
    obtain ⟨y, hy, -⟩ := Option.bind_eq_some_iff.1 h
    exact ih hy

/-- A chain that has come back goes round through the names that it has passed. -/
theorem chainAt_round {i k : Nat} (hik : i < k) (hi : chainAt aliases i name = some x)
    (hk : chainAt aliases k name = some x) (j : Nat) :
    ∃ l < k, chainAt aliases j name = chainAt aliases l name := by
  induction j with
  | zero => exact ⟨0, by omega, rfl⟩
  | succ j ih =>
    obtain ⟨l, hl, hjl⟩ := ih
    have hnext : chainAt aliases (j + 1) name = chainAt aliases (l + 1) name := by
      rw [chainAt_succ, chainAt_succ, hjl]
    by_cases hlast : l + 1 = k
    · refine ⟨i, hik, ?_⟩
      rw [hnext, hlast, hk, hi]
    · exact ⟨l + 1, by omega, hnext⟩

theorem neverEnds_of_round {i k : Nat} (hik : i < k) (hi : chainAt aliases i name = some x)
    (hk : chainAt aliases k name = some x) : NeverEnds aliases name := by
  have hgoes : ∀ j, ∃ y, chainAt aliases j name = some y := by
    intro j
    obtain ⟨l, hl, hjl⟩ := chainAt_round hik hi hk j
    rw [hjl]
    exact chainAt_of_le hl.le hk
  intro j
  obtain ⟨y, hy⟩ := hgoes j
  obtain ⟨z, hz⟩ := hgoes (j + 1)
  rw [chainAt_succ, hy] at hz
  exact ⟨y, hy, mem_keys_of_lookup hz⟩

/-- A chain ends at one name at most. -/
theorem EndsAt.unique {y : String} (hx : EndsAt aliases name x) (hy : EndsAt aliases name y) :
    x = y := by
  -- behind a name that is no alias there is nothing
  have hle : ∀ {j k : Nat} {a b : String}, chainAt aliases j name = some a →
      a ∉ aliases.map (·.1) → chainAt aliases k name = some b → k ≤ j := by
    intro j k a b ha hend hb
    by_contra hlt
    obtain ⟨c, hc⟩ := chainAt_of_le (show j + 1 ≤ k by omega) hb
    rw [chainAt_succ, ha] at hc
    exact hend (mem_keys_of_lookup hc)
  obtain ⟨j, hj, hxend⟩ := hx
  obtain ⟨k, hk, hyend⟩ := hy
  have hjk : j = k := Nat.le_antisymm (hle hk hyend hj) (hle hj hxend hk)
  rw [hjk, hk] at hj
  exact (Option.some.inj hj).symm

theorem EndsAt.not_neverEnds (h : EndsAt aliases name x) : ¬ NeverEnds aliases name := by
  intro hnever
  obtain ⟨k, hk, hend⟩ := h
  obtain ⟨y, hy, hmem⟩ := hnever k
  rw [hk] at hy
  exact hend (Option.some.inj hy ▸ hmem)

/-! ## What a resolution does -/

/-- What a name that is no alias stands for: the message of that type, or of that name, if any. -/
def messageOf (types : Names) (messages : List String) (name : String) : Option String :=
  (types.lookup name).or (if name ∈ messages then some name else none)

theorem mem_chain_cons (h : aliases.lookup name = some target) (k : Nat) (y : String) :
    (∃ j ≤ k + 1, chainAt aliases j name = some y) ↔
      y = name ∨ ∃ j ≤ k, chainAt aliases j target = some y := by
  constructor
  · rintro ⟨j, hj, hy⟩
    cases j with
    | zero => exact Or.inl (Option.some.inj hy).symm
    | succ j =>
      rw [chainAt_cons h] at hy
      exact Or.inr ⟨j, by omega, hy⟩
  · rintro (rfl | ⟨j, hj, hy⟩)
    · exact ⟨0, by omega, rfl⟩
    · exact ⟨j + 1, by omega, by rw [chainAt_cons h, hy]⟩

/-- A resolution runs out of steps, or comes to the end of the chain, or after `k` aliases to a name
that was passed before; then it lists all names that were passed. -/
theorem resolveAlias_cases (aliases types : Names) (messages : List String) (steps : Nat)
    (visited : List String) (name : String) :
    resolveAlias aliases types messages steps visited name = .error .tooLong ∨
    (∃ last, EndsAt aliases name last ∧
      resolveAlias aliases types messages steps visited name =
        .ok (messageOf types messages last)) ∨
    ∃ k x names, chainAt aliases k name = some x ∧
      (x ∈ visited ∨ ∃ j < k, chainAt aliases j name = some x) ∧
      (∀ y, y ∈ names ↔ y ∈ visited ∨ ∃ j ≤ k, chainAt aliases j name = some y) ∧
      resolveAlias aliases types messages steps visited name = .error (.circular names) := by
  induction steps generalizing visited name with
  | zero => exact Or.inl rfl
  | succ steps ih =>
    by_cases hpassed : name ∈ visited
    · refine Or.inr (Or.inr ⟨0, name, Text.ascendingSet (name :: visited), rfl, Or.inl hpassed,
        ?_, ?_⟩)
      · intro y
        simp only [Text.mem_ascendingSet, List.mem_cons, Nat.le_zero, exists_eq_left, chainAt,
          Option.some.injEq]
        rw [or_comm, eq_comm]
      · simp [resolveAlias, hpassed]
    · cases hlookup : aliases.lookup name with
      | none =>
        refine Or.inr (Or.inl ⟨name, ⟨0, rfl, lookup_eq_none_iff.1 hlookup⟩, ?_⟩)
        cases htype : types.lookup name <;>
          simp [resolveAlias, hpassed, hlookup, htype, messageOf]
      | some target =>
        have hstep : resolveAlias aliases types messages (steps + 1) visited name =
            resolveAlias aliases types messages steps (name :: visited) target := by
          simp [resolveAlias, hpassed, hlookup]
        rw [hstep]
        rcases ih (name :: visited) target with hlong | ⟨last, ⟨k, hk, hlast⟩, hok⟩ |
          ⟨k, x, names, hk, hback, hnames, herror⟩
        · exact Or.inl hlong
        · exact Or.inr (Or.inl ⟨last, ⟨k + 1, by rw [chainAt_cons hlookup, hk], hlast⟩, hok⟩)
        · refine Or.inr (Or.inr ⟨k + 1, x, names, by rw [chainAt_cons hlookup, hk], ?_, ?_, herror⟩)
          · rcases hback with hmem | ⟨j, hj, hx⟩
            · rcases List.mem_cons.1 hmem with rfl | hmem
              · exact Or.inr ⟨0, by omega, rfl⟩
              · exact Or.inl hmem
            · exact Or.inr ⟨j + 1, by omega, by rw [chainAt_cons hlookup, hx]⟩
          · intro y
            rw [hnames, mem_chain_cons hlookup, List.mem_cons, or_assoc, or_left_comm]

/-- With more steps than there are aliases left to pass, a resolution does not run out of them. -/
theorem resolveAlias_ne_tooLong {steps : Nat} (visited : List String) (name : String)
    (h : ((aliases.map (·.1)).toFinset \ visited.toFinset).card < steps) :
    resolveAlias aliases types messages steps visited name ≠ .error .tooLong := by
  induction steps generalizing visited name with
  | zero => omega
  | succ steps ih =>
    by_cases hpassed : name ∈ visited
    · simp [resolveAlias, hpassed]
    · cases hlookup : aliases.lookup name with
      | none => cases htype : types.lookup name <;> simp [resolveAlias, hpassed, hlookup, htype]
      | some target =>
        have hfewer : ((aliases.map (·.1)).toFinset \ (name :: visited).toFinset).card <
            ((aliases.map (·.1)).toFinset \ visited.toFinset).card := by
          apply Finset.card_lt_card
          rw [Finset.ssubset_iff_of_subset (by intro y; simp; tauto)]
          refine ⟨name, ?_, by simp⟩
          rw [Finset.mem_sdiff, List.mem_toFinset, List.mem_toFinset]
          exact ⟨mem_keys_of_lookup hlookup, hpassed⟩
        have hrest := ih (name :: visited) target (by omega)
        simpa [resolveAlias, hpassed, hlookup] using hrest

theorem card_unvisited_le (aliases : Names) (visited : List String) :
    ((aliases.map (·.1)).toFinset \ visited.toFinset).card ≤ aliases.length := by
  calc ((aliases.map (·.1)).toFinset \ visited.toFinset).card
      ≤ (aliases.map (·.1)).toFinset.card := Finset.card_le_card Finset.sdiff_subset
    _ ≤ (aliases.map (·.1)).length := List.toFinset_card_le _
    _ = aliases.length := List.length_map _

/-- A resolution that may take more steps than there are aliases, and that starts with names off the
chain, comes to the end of the chain or goes round it. -/
theorem resolveAlias_outcome (types : Names) (messages : List String) {steps : Nat}
    (hsteps : aliases.length < steps) (hapart : ∀ x, OnChain aliases name x → x ∉ visited) :
    (∃ last, EndsAt aliases name last ∧
      resolveAlias aliases types messages steps visited name =
        .ok (messageOf types messages last)) ∨
    (NeverEnds aliases name ∧ ∃ names, (∀ y, y ∈ names ↔ y ∈ visited ∨ OnChain aliases name y) ∧
      resolveAlias aliases types messages steps visited name = .error (.circular names)) := by
  have henough := Nat.lt_of_le_of_lt (card_unvisited_le aliases visited) hsteps
  rcases resolveAlias_cases aliases types messages steps visited name with hlong | hend |
    ⟨k, x, names, hk, hback, hnames, herror⟩
  · exact absurd hlong (resolveAlias_ne_tooLong visited name henough)
  · exact Or.inl hend
  · rcases hback with hmem | ⟨j, hj, hx⟩
    · exact absurd hmem (hapart x ⟨k, hk⟩)
    · refine Or.inr ⟨neverEnds_of_round hj hx hk, names, ?_, herror⟩
      intro y
      rw [hnames]
      apply or_congr_right
      constructor
      · rintro ⟨l, -, hl⟩
        exact ⟨l, hl⟩
      · rintro ⟨i, hi⟩
        obtain ⟨l, hl, hil⟩ := chainAt_round hj hx hk i
        exact ⟨l, hl.le, by rw [← hil, hi]⟩

/-! ## The resolution of a name -/

/-- **A resolution follows the chain, and ends.** Where it may take more steps than there are
aliases, and has passed no name of the chain before it starts, it complains of a circle just if the
chain never ends, and then lists the names of the chain and those passed before; otherwise it gives
the message that the last name of the chain stands for, if any.  What was passed before makes no
difference to the outcome, only to the names that a complaint lists. -/
theorem resolveAlias_follows_chain (aliases types : Names) (messages : List String)
    (visited : List String) (name : String) (steps : Nat) (hsteps : aliases.length < steps)
    (hapart : ∀ x, OnChain aliases name x → x ∉ visited) :
    ((∃ names, resolveAlias aliases types messages steps visited name = .error (.circular names)) ↔
      NeverEnds aliases name) ∧
    (¬ NeverEnds aliases name → ∃ last, EndsAt aliases name last) ∧
    (∀ last, EndsAt aliases name last →
      resolveAlias aliases types messages steps visited name =
        .ok ((types.lookup last).or (if last ∈ messages then some last else none))) ∧
    (∀ names, resolveAlias aliases types messages steps visited name = .error (.circular names) →
      ∀ x, x ∈ names ↔ x ∈ visited ∨ OnChain aliases name x) ∧
    (∀ answer, resolveAlias aliases types messages steps visited name = .ok answer ↔
      resolveAlias aliases types messages steps [] name = .ok answer) ∧
    ((∃ names, resolveAlias aliases types messages steps visited name = .error (.circular names)) ↔
      ∃ names, resolveAlias aliases types messages steps [] name = .error (.circular names)) := by
  have hbare : ∀ x, OnChain aliases name x → x ∉ ([] : List String) := by simp
  rcases resolveAlias_outcome types messages hsteps hapart with
    ⟨last, hend, hok⟩ | ⟨hnever, names, hnames, herror⟩
  · have hends := hend.not_neverEnds
    have hok' : resolveAlias aliases types messages steps [] name =
        .ok (messageOf types messages last) := by
      rcases resolveAlias_outcome types messages hsteps hbare with
        ⟨last', hend', hok'⟩ | ⟨hnever, -⟩
      · rw [hok', hend.unique hend']
      · exact absurd hnever hends
    rw [hok, hok']
    refine ⟨by simp [hends], fun _ => ⟨last, hend⟩, ?_, by simp, by simp, by simp⟩
    intro last' hend'
    rw [hend.unique hend']
    rfl
  · have herror' : ∃ names', resolveAlias aliases types messages steps [] name =
        .error (.circular names') := by
      rcases resolveAlias_outcome types messages hsteps hbare with
        ⟨last, hend, -⟩ | ⟨-, names', -, herror'⟩
      · exact absurd hnever hend.not_neverEnds
      · exact ⟨names', herror'⟩
    obtain ⟨names', herror'⟩ := herror'
    rw [herror, herror']
    refine ⟨by simp [hnever], fun hnot => absurd hnever hnot, ?_, ?_, by simp, by simp⟩
    · intro last hend
      exact absurd hnever hend.not_neverEnds
    · intro names₁ heq
      cases heq
      exact hnames

theorem OnChain.name_or_target (h : OnChain aliases name x) : x = name ∨ x ∈ aliases.map (·.2) := by
  obtain ⟨k, hk⟩ := h
  cases k with
  | zero => exact Or.inl (Option.some.inj hk).symm
  | succ k =>
    rw [chainAt_succ] at hk
    obtain ⟨y, -, hlookup⟩ := Option.bind_eq_some_iff.1 hk
    obtain ⟨before, after, rfl, -⟩ := List.lookup_eq_some_iff.1 hlookup
    simp

/-- A chain of two aliases that ends, and one that comes to a circle after its first name. -/
def tangledNames : Names :=
  [("Listed", "Created"), ("Created", "Item"), ("A", "B"), ("B", "C"), ("C", "B")]

theorem resolveAlias_follows_chain_tangled :
    NeverEnds tangledNames "A" ∧
    (∃ names, resolveAlias tangledNames [("Item", "ItemCreated")] ["ItemCreated"] 6 ["Z"] "A" =
      .error (.circular names)) ∧
    EndsAt tangledNames "Listed" "Item" ∧
    resolveAlias tangledNames [("Item", "ItemCreated")] ["ItemCreated"] 6 ["Z"] "Listed" =
      .ok (some "ItemCreated") := by
  have hapart : ∀ name ∈ ["A", "Listed"], ∀ x, OnChain tangledNames name x → x ∉ ["Z"] := by
    intro name hname x hx hz
    obtain rfl := List.mem_singleton.1 hz
    have hnone : ∀ name ∈ ["A", "Listed"],
        ¬ ("Z" = name ∨ "Z" ∈ tangledNames.map (·.2)) := by decide
    exact hnone name hname hx.name_or_target
  have hround : NeverEnds tangledNames "A" :=
    neverEnds_of_round (show 1 < 3 by omega) (x := "B") (by decide) (by decide)
  have hend : EndsAt tangledNames "Listed" "Item" := ⟨2, by decide, by decide⟩
  have hfollows := fun name hname => resolveAlias_follows_chain tangledNames
    [("Item", "ItemCreated")] ["ItemCreated"] ["Z"] name 6 (by decide) (hapart name hname)
  exact ⟨hround, (hfollows "A" (by simp)).1.2 hround, hend,
    (hfollows "Listed" (by simp)).2.2.1 "Item" hend⟩

end EventFlow.Declaration
