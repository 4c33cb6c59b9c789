import EventFlow.Proofs.Bind
import EventFlow.Text.Order
import Mathlib.Data.List.Induction
import Mathlib.Data.List.Nodup

/-! Texts in order, each once.

Texts in strictly ascending order are known by which texts they are, so the ascending list of some
texts does not depend on how often or in which order they come up:

    (∀ x, x ∈ xs ↔ x ∈ ys)  →  ascendingSet xs = ascendingSet ys

Texts that are mentioned one after the other are listed in order of first mention:

    xs.foldl mention [] = xs.eraseDups -/

namespace EventFlow.Text

/-! ## First mentions -/

theorem mem_mention (known : List String) (name x : String) :
    x ∈ mention known name ↔ x ∈ known ∨ x = name := by
  unfold mention
  split
  · next hn =>
    constructor
    · exact Or.inl
    · rintro (h | rfl)
      · exact h
      · simpa using hn
  · simp

theorem nodup_mention (known : List String) (name : String) (h : known.Nodup) :
    (mention known name).Nodup := by
  unfold mention
  split
  · exact h
  · next hn => exact nodup_concat _ _ h (by simpa using hn)

theorem mem_foldl_mention (names known : List String) (x : String) :
    x ∈ names.foldl mention known ↔ x ∈ known ∨ x ∈ names := by
  induction names generalizing known with
  | nil => simp
  | cons name rest ih => rw [List.foldl_cons, ih, mem_mention, List.mem_cons, or_assoc]

theorem nodup_foldl_mention (names known : List String) (h : known.Nodup) :
    (names.foldl mention known).Nodup := by
  induction names generalizing known with
  | nil => exact h
  | cons name rest ih => exact ih _ (nodup_mention known name h)

theorem eraseDups_concat (xs : List String) (a : String) :
    (xs ++ [a]).eraseDups = if a ∈ xs then xs.eraseDups else xs.eraseDups ++ [a] := by
  rw [List.eraseDups_append]
  by_cases h : a ∈ xs <;> simp [List.removeAll, List.eraseDups_cons, h]

/-- Texts that are mentioned in turn are listed where they first came up. -/
theorem foldl_mention (xs : List String) : xs.foldl mention [] = xs.eraseDups := by
  induction xs using List.reverseRecOn with
  | nil => rfl
  | append_singleton xs a ih =>
    rw [List.foldl_append, ih, eraseDups_concat]
    show mention xs.eraseDups a = _
    simp [mention]

theorem nodup_eraseDups (xs : List String) : xs.eraseDups.Nodup := by
  rw [← foldl_mention]
  exact nodup_foldl_mention xs [] .nil

/-! ## Ascending lists -/

theorem pairwise_ascending (xs : List String) : (ascending xs).Pairwise (· ≤ ·) := by
  have h : (xs.mergeSort fun a b => a ≤ b).Pairwise (fun a b => decide (a ≤ b) = true) :=
    List.pairwise_mergeSort (by simpa using fun a b c => String.le_trans)
      (by simpa using String.le_total) xs
  simpa [ascending] using h

/-- Texts in ascending order that are all different are in strictly ascending order. -/
theorem pairwise_lt {xs : List String} (h : xs.Pairwise (· ≤ ·)) (hnodup : xs.Nodup) :
    xs.Pairwise (· < ·) := by
  apply (h.and hnodup).imp
  intro a b hab
  by_contra hnot
  exact hab.2 (String.le_antisymm hab.1 (String.not_lt.1 hnot))

theorem mem_ascending {xs : List String} {x : String} : x ∈ ascending xs ↔ x ∈ xs :=
  List.mem_mergeSort

theorem nodup_ascending {xs : List String} (h : xs.Nodup) : (ascending xs).Nodup :=
  (List.mergeSort_perm xs _).nodup_iff.2 h

theorem mem_ascendingSet {xs : List String} {x : String} : x ∈ ascendingSet xs ↔ x ∈ xs := by
  rw [ascendingSet, mem_ascending, List.mem_eraseDups]

theorem pairwise_ascendingSet (xs : List String) : (ascendingSet xs).Pairwise (· < ·) :=
  pairwise_lt (pairwise_ascending _) (nodup_ascending (nodup_eraseDups xs))

/-- Lists in strictly ascending order are equal if they have the same members. -/
theorem eq_of_mem_iff {xs ys : List String} (hx : xs.Pairwise (· < ·)) (hy : ys.Pairwise (· < ·))
    (h : ∀ x, x ∈ xs ↔ x ∈ ys) : xs = ys := by
  have hne : ∀ zs : List String, zs.Pairwise (· < ·) → zs.Nodup := by
    intro zs hzs
    apply hzs.imp
    rintro a b hab rfl
    exact String.lt_irrefl a hab
  have hperm : xs.Perm ys := (List.perm_ext_iff_of_nodup (hne xs hx) (hne ys hy)).2 h
  apply hperm.eq_of_pairwise _ hx hy
  intro a b _ _ hab hba
  exact absurd (String.lt_trans hab hba) (String.lt_irrefl a)

/-- The ascending list of some texts is the one that has all of them. -/
theorem ascendingSet_eq {xs ys : List String} (hy : ys.Pairwise (· < ·))
    (h : ∀ x, x ∈ xs ↔ x ∈ ys) : ascendingSet xs = ys := by
  apply eq_of_mem_iff (pairwise_ascendingSet xs) hy
  intro x
  rw [mem_ascendingSet, h]

theorem ascendingSet_congr {xs ys : List String} (h : ∀ x, x ∈ xs ↔ x ∈ ys) :
    ascendingSet xs = ascendingSet ys := by
  apply ascendingSet_eq (pairwise_ascendingSet ys)
  intro x
  rw [mem_ascendingSet, h]

theorem ascendingSet_of_perm {xs ys : List String} (h : xs.Nodup) (hperm : xs.Perm ys)
    (hsorted : ys.Pairwise (· ≤ ·)) : ascendingSet xs = ys :=
  ascendingSet_eq (pairwise_lt hsorted (hperm.nodup_iff.1 h)) fun _ => hperm.mem_iff

/-! ## Named items -/

/-- Items with distinct names have one order by name. -/
theorem eq_of_perm_of_names {α : Type} {name : α → String} {xs ys : List α} (h : xs.Perm ys)
    (hnodup : (xs.map name).Nodup) (hx : xs.Pairwise fun a b => name a ≤ name b)
    (hy : ys.Pairwise fun a b => name a ≤ name b) : xs = ys := by
  apply h.eq_of_pairwise _ hx hy
  intro a b ha hb hab hba
  exact List.inj_on_of_nodup_map hnodup ha (h.mem_iff.2 hb) (String.le_antisymm hab hba)

end EventFlow.Text
