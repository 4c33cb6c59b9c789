import EventFlow.Json.Order
import EventFlow.Proofs.Json.RoundTrip

/-! Document values up to the order of their members.

Two values are reordered if they agree once the members of every object are sorted by name.  Sorting
is stable, so a look-up finds the same member before and after:

    get? key (sortByName members) = get? key members

A reader that only looks up members cannot tell a value from a reordered one.  `KeepsShape` says
what such a reader relies on; it holds of `sorted`, and of the identity. -/

namespace EventFlow.Json

variable {p : Json → Bool} {ms : Members} (key : String)

/-- Equal but for the order of members. -/
def Reordered (v w : Json) : Prop := v.sorted = w.sorted

/-! ## Members after sorting -/

theorem get?_eq_head? (ms : Members) :
    get? key ms = ((ms.filter (·.1 = key)).head?).map (·.2) := by
  induction ms with
  | nil => rfl
  | cons m ms ih =>
    obtain ⟨k, v⟩ := m
    by_cases hk : k = key <;> simp [get?, hk, ih]

theorem sortedBy_trans (a b c : String × Json) (hab : decide (a.1 ≤ b.1) = true)
    (hbc : decide (b.1 ≤ c.1) = true) : decide (a.1 ≤ c.1) = true :=
  decide_eq_true (String.le_trans (of_decide_eq_true hab) (of_decide_eq_true hbc))

theorem sortedBy_total (a b : String × Json) :
    (decide (a.1 ≤ b.1) || decide (b.1 ≤ a.1)) = true := by
  simpa using String.le_total a.1 b.1

/-- Members of one name keep their order when all are sorted. -/
theorem filter_sortByName (ms : Members) :
    (sortByName ms).filter (·.1 = key) = ms.filter (·.1 = key) := by
  have hsub : (ms.filter (·.1 = key)).Sublist (sortByName ms) := by
    refine List.sublist_mergeSort sortedBy_trans sortedBy_total ?_ List.filter_sublist
    refine List.pairwise_of_forall_mem_list ?_
    intro a ha b hb
    have hak : a.1 = key := by simpa using (List.mem_filter.1 ha).2
    have hbk : b.1 = key := by simpa using (List.mem_filter.1 hb).2
    simp [hak, hbk]
  have hkept : (ms.filter (·.1 = key)).Sublist ((sortByName ms).filter (·.1 = key)) := by
    have := hsub.filter (fun m => decide (m.1 = key))
    simpa [List.filter_filter] using this
  refine (hkept.eq_of_length ?_).symm
  exact ((List.mergeSort_perm ms _).filter _).length_eq.symm

theorem get?_sortByName (ms : Members) :
    get? key (sortByName ms) = get? key ms := by
  rw [get?_eq_head?, filter_sortByName, ← get?_eq_head?]

theorem get?_sortedMembers (ms : Members) :
    get? key (sortedMembers ms) = (get? key ms).map sorted := by
  induction ms with
  | nil => rfl
  | cons m ms ih =>
    obtain ⟨k, v⟩ := m
    by_cases hk : k = key <;> simp [sortedMembers, get?, hk, ih]

theorem sortedItems_eq_map (xs : List Json) : sortedItems xs = xs.map sorted := by
  induction xs with
  | nil => rfl
  | cons x xs ih => rw [sortedItems, ih, List.map_cons]

/-! ## What a reader relies on -/

/-- Whether a value has no parts. -/
def isSingle : Json → Bool
  | .array _ | .object _ => false
  | _ => true

/-- Values that `q` does not tell apart are built alike: single values are equal, arrays have the
same items in order, and objects the same members under each name, all up to `q`. -/
structure KeepsShape (q : Json → Json) : Prop where
  single : ∀ v w, v.isSingle = true → q w = q v → w = v
  array : ∀ xs w, q w = q (.array xs) → ∃ ys, w = .array ys ∧ ys.map q = xs.map q
  object : ∀ ms w, q w = q (.object ms) →
    ∃ ns, w = .object ns ∧ ∀ key, (get? key ns).map q = (get? key ms).map q

theorem keepsShape_id : KeepsShape id :=
  ⟨fun _ _ _ h => h, fun xs _ h => ⟨xs, h, rfl⟩, fun ms _ h => ⟨ms, h, fun _ => rfl⟩⟩

theorem keepsShape_sorted : KeepsShape sorted where
  single := by
    intro v w hv h
    cases v <;> cases w <;> simp_all [sorted, isSingle]
  array := by
    intro xs w h
    cases w with
    | array ys =>
      simp only [sorted, Json.array.injEq, sortedItems_eq_map] at h
      exact ⟨ys, rfl, h⟩
    | _ => simp [sorted] at h
  object := by
    intro ms w h
    cases w with
    | object ns =>
      simp only [sorted, Json.object.injEq] at h
      refine ⟨ns, rfl, fun key => ?_⟩
      rw [← get?_sortedMembers, ← get?_sortedMembers, ← get?_sortByName key (sortedMembers ns), h,
        get?_sortByName]
    | _ => simp [sorted] at h

/-! ## Sorting twice -/

theorem mem_sortByName {m : String × Json} : m ∈ sortByName ms ↔ m ∈ ms :=
  List.mem_mergeSort

theorem sortByName_of_pairwise (h : ms.Pairwise fun a b => a.1 ≤ b.1) :
    sortByName ms = ms :=
  List.mergeSort_of_pairwise (h.imp fun hab => by simpa using hab)

theorem pairwise_sortByName (ms : Members) : (sortByName ms).Pairwise fun a b => a.1 ≤ b.1 := by
  have h : (sortByName ms).Pairwise fun a b => decide (a.1 ≤ b.1) = true :=
    List.pairwise_mergeSort sortedBy_trans sortedBy_total ms
  exact h.imp of_decide_eq_true

theorem sortedMembers_eq_map (ms : Members) :
    sortedMembers ms = ms.map fun m => (m.1, m.2.sorted) := by
  induction ms with
  | nil => rfl
  | cons m ms ih => rw [sortedMembers, ih, List.map_cons]

theorem sorted_array (xs : List Json) : (Json.array xs).sorted = .array (xs.map sorted) := by
  rw [sorted, sortedItems_eq_map]

theorem sorted_object (ms : Members) :
    (Json.object ms).sorted = .object (sortByName (ms.map fun m => (m.1, m.2.sorted))) := by
  rw [sorted, sortedMembers_eq_map]

mutual

theorem sorted_sorted (v : Json) : v.sorted.sorted = v.sorted := by
  cases v with
  | array items => simp only [sorted, sortedItems_sortedItems items]
  | object members =>
    have hsame : sortedMembers (sortByName (sortedMembers members)) =
        sortByName (sortedMembers members) := by
      rw [sortedMembers_eq_map (sortByName _)]
      refine (List.map_congr_left ?_).trans (List.map_id _)
      intro m hm
      exact Prod.ext rfl (sorted_of_mem_sortedMembers members m (mem_sortByName.1 hm))
    rw [sorted, sorted, hsame, sortByName_of_pairwise (pairwise_sortByName _)]
  | _ => rfl

theorem sortedItems_sortedItems (vs : List Json) :
    sortedItems (sortedItems vs) = sortedItems vs := by
  cases vs with
  | nil => rfl
  | cons v vs => rw [sortedItems, sortedItems, sorted_sorted v, sortedItems_sortedItems vs]

theorem sorted_of_mem_sortedMembers (ms : Members) :
    ∀ m ∈ sortedMembers ms, m.2.sorted = m.2 := by
  cases ms with
  | nil => simp [sortedMembers]
  | cons m ms =>
    obtain ⟨k, v⟩ := m
    intro x hx
    rw [sortedMembers, List.mem_cons] at hx
    rcases hx with rfl | hx
    · exact sorted_sorted v
    · exact sorted_of_mem_sortedMembers ms x hx

end

/-! ## Properties of all values in a sorted one -/

theorem everywhereUnder_iff :
    everywhereUnder p ms = true ↔ ∀ m ∈ ms, everywhere p m.2 = true := by
  induction ms with
  | nil => simp [everywhereUnder]
  | cons m ms ih =>
    obtain ⟨k, v⟩ := m
    simp [everywhereUnder, ih]

theorem everywhereUnder_sortByName (p : Json → Bool) (ms : Members) :
    everywhereUnder p (sortByName ms) = everywhereUnder p ms := by
  rw [Bool.eq_iff_iff, everywhereUnder_iff, everywhereUnder_iff]
  simp only [mem_sortByName]

mutual

/-- What sorting changes nowhere it does not change on the whole. -/
theorem everywhere_sorted (h : ∀ v, p v.sorted = p v) (v : Json) :
    everywhere p v.sorted = everywhere p v := by
  cases v with
  | array items =>
    have hnode := h (.array items)
    rw [sorted] at hnode ⊢
    rw [everywhere, everywhere, hnode, everywhereIn_sortedItems h items]
  | object members =>
    have hnode := h (.object members)
    rw [sorted] at hnode ⊢
    rw [everywhere, everywhere, hnode, everywhereUnder_sortByName,
      everywhereUnder_sortedMembers h members]
  | null | bool _ | number _ | text _ => rfl

theorem everywhereIn_sortedItems (h : ∀ v, p v.sorted = p v) (vs : List Json) :
    everywhereIn p (sortedItems vs) = everywhereIn p vs := by
  cases vs with
  | nil => rfl
  | cons v vs =>
    rw [sortedItems, everywhereIn, everywhereIn, everywhere_sorted h v,
      everywhereIn_sortedItems h vs]

theorem everywhereUnder_sortedMembers (h : ∀ v, p v.sorted = p v) (ms : Members) :
    everywhereUnder p (sortedMembers ms) = everywhereUnder p ms := by
  cases ms with
  | nil => rfl
  | cons m ms =>
    obtain ⟨k, v⟩ := m
    rw [sortedMembers, everywhereUnder, everywhereUnder, everywhere_sorted h v,
      everywhereUnder_sortedMembers h ms]

end

theorem isWritable_sorted (v : Json) : v.sorted.isWritable = v.isWritable := by
  rw [isWritable_eq, isWritable_eq]
  exact everywhere_sorted (fun w => by cases w <;> rfl) v

theorem isExact_sorted (v : Json) : isExact v.sorted = isExact v := by
  refine everywhere_sorted (fun w => ?_) v
  cases w with
  | object members =>
    have hperm : (sortByName (sortedMembers members)).Perm (sortedMembers members) :=
      List.mergeSort_perm _ _
    rw [sorted, isExactNode, isExactNode, decide_eq_decide, (hperm.map (·.1)).nodup_iff,
      sortedMembers_eq_map, List.map_map]
    rfl
  | null | bool _ | number _ | text _ | array _ => rfl

/-- The order of members does not show in the sorted text. -/
theorem Reordered.document?_eq {v w : Json} (h : v.Reordered w) : v.document? = w.document? := by
  have hwritable : v.isWritable = w.isWritable := by
    rw [← isWritable_sorted v, h, isWritable_sorted]
  rw [document?, document?, hwritable, writeSorted, writeSorted, h]

/-! ## Values that come back -/

/-- The sorted text of a value reads as a reordering of it. -/
def ReadsBack (v : Json) : Prop :=
  ∃ text w, v.document? = some text ∧ Json.read text = .ok w ∧ w.Reordered v

mutual

/-- Every level of nesting takes a character. -/
theorem depth_le_length (v : Json) : v.depth ≤ (writeChars v).length := by
  cases v with
  | array items =>
    have := depthIn_le_length items
    simp only [depth, writeChars, List.length_append, List.length_cons, List.length_nil]
    omega
  | object members =>
    have := depthUnder_le_length members
    simp only [depth, writeChars, List.length_append, List.length_cons, List.length_nil]
    omega
  | null | bool _ | number _ | text _ => exact Nat.zero_le _

theorem depthIn_le_length (vs : List Json) : depthIn vs ≤ (writeItems vs).length := by
  cases vs with
  | nil => exact Nat.zero_le _
  | cons v vs =>
    have hv := depth_le_length v
    cases vs with
    | nil => simpa [depthIn, writeItems] using hv
    | cons w vs =>
      have hvs := depthIn_le_length (w :: vs)
      rw [writeItems_cons_cons, depthIn]
      simp only [List.length_append, List.length_cons]
      omega

theorem depthUnder_le_length (ms : Members) : depthUnder ms ≤ (writeMembers ms).length := by
  cases ms with
  | nil => exact Nat.zero_le _
  | cons m ms =>
    obtain ⟨k, v⟩ := m
    have hv := depth_le_length v
    cases ms with
    | nil =>
      simp only [depthUnder, writeMembers, List.length_append, List.length_cons]
      omega
    | cons n ms =>
      have hms := depthUnder_le_length (n :: ms)
      rw [writeMembers_cons_cons, depthUnder]
      simp only [List.length_append, List.length_cons]
      omega

end

/-- Documents without fractions come back. -/
theorem readsBack_of_isExact {v : Json} (h : isExact v = true) : v.ReadsBack := by
  refine ⟨v.writeSorted, v.sorted, by rw [document?, if_pos (isWritable_of_isExact h)], ?_,
    sorted_sorted v⟩
  have hdepth : v.sorted.depth ≤ v.writeSorted.length := by
    have := depth_le_length v.sorted
    rwa [writeSorted, write, String.length_ofList]
  exact readWithin_write ((isExact_sorted v).trans h) hdepth

end EventFlow.Json
