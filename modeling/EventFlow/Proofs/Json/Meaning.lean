import EventFlow.Proofs.Json.Reordered
import EventFlow.Proofs.Text.Order
import Mathlib.Data.List.Perm.Subperm
import Mathlib.Tactic.LinearCombination
import Mathlib.Tactic.Ring

/-! Values that mean the same have one normal form.

A number is brought to lowest terms, a truth value to one or zero, and the members of an object to
the order of their names.  Two values in whose objects no name occurs twice are the same just if
they then agree:

    v.same w  ↔  v.meaning = w.meaning

So what is the same is so in both directions, and along a chain of values.  What is no number counts
as the same as itself. -/

namespace EventFlow

/-! ## Numbers -/

namespace Number

/-- The numerator of a double over a power of two. -/
def numerator (negative : Bool) (m : Nat) (e : Int) : Int :=
  if negative then -(m * 2 ^ e.toNat) else m * 2 ^ e.toNat

/-- The value as a numerator over a power of two. -/
def dyadic? : Number → Option (Int × Nat)
  | .int i => some (i, 0)
  | .double (.finite negative m e) =>
    some (numerator negative m e, (-e).toNat)
  | .double _ => none

/-- A quotient by a power of two in lowest terms. -/
def halved : Int → Nat → Int × Nat
  | a, 0 => (a, 0)
  | a, k + 1 => if a % 2 = 0 then halved (a / 2) k else (a, k + 1)

def ofDyadic : Int × Nat → Number
  | (a, 0) => .int a
  | (a, k + 1) => .double (.finite (a < 0) a.natAbs (-(k + 1)))

/-- The number in lowest terms: an integer, if it is one. -/
def lowest (n : Number) : Number :=
  match n.dyadic? with
  | some (a, k) => ofDyadic (halved a k)
  | none => n

@[simp] theorem lowest_int (i : Int) : (Number.int i).lowest = .int i := rfl

/-- The numerator is odd, unless the number is an integer. -/
def IsLowest (p : Int × Nat) : Prop := p.2 = 0 ∨ p.1 % 2 ≠ 0

theorem isLowest_halved (a : Int) (k : Nat) : IsLowest (halved a k) := by
  fun_induction halved a k with
  | case1 => exact Or.inl rfl
  | case2 a k h ih => exact ih
  | case3 a k h => exact Or.inr h

/-- The value is kept. -/
theorem halved_value (a : Int) (k : Nat) :
    (halved a k).1 * 2 ^ k = a * 2 ^ (halved a k).2 := by
  fun_induction halved a k with
  | case1 => rfl
  | case2 a k h ih =>
    have hhalf : a = a / 2 * 2 := by omega
    rw [pow_succ]
    nth_rewrite 2 [hhalf]
    linear_combination 2 * ih
  | case3 => rfl

/-- Lowest terms are unique. -/
theorem eq_of_isLowest {p q : Int × Nat} (hp : IsLowest p) (hq : IsLowest q)
    (h : p.1 * 2 ^ q.2 = q.1 * 2 ^ p.2) : p = q := by
  -- a smaller exponent on one side leaves a factor of two on the other
  have key : ∀ {a b : Int} {k l : Nat}, k ≤ l → IsLowest (b, l) → a * 2 ^ l = b * 2 ^ k →
      (a, k) = (b, l) := by
    intro a b k l hle hlow h
    obtain ⟨d, rfl⟩ := Nat.exists_eq_add_of_le hle
    have hb : a * 2 ^ d = b := by
      apply mul_right_cancel₀ (pow_ne_zero k (two_ne_zero : (2 : Int) ≠ 0))
      rw [← h, pow_add]
      ring
    cases d with
    | zero => simpa using hb
    | succ d =>
      rcases hlow with hzero | hodd
      · exact absurd hzero (Nat.succ_ne_zero _)
      · rw [← hb, pow_succ, ← mul_assoc] at hodd
        exact absurd (Int.mul_emod_left _ _) hodd
  obtain ⟨a, k⟩ := p
  obtain ⟨b, l⟩ := q
  rcases Nat.le_total k l with hle | hle
  · exact key hle hq h
  · exact (key hle hp h.symm).symm

theorem halved_eq_iff (a b : Int) (k l : Nat) :
    halved a k = halved b l ↔ a * 2 ^ l = b * 2 ^ k := by
  have ha := halved_value a k
  have hb := halved_value b l
  have hne : ∀ n : Nat, (2 : Int) ^ n ≠ 0 := fun n => pow_ne_zero n two_ne_zero
  constructor
  · intro h
    rw [h] at ha
    apply mul_right_cancel₀ (hne (halved b l).2)
    linear_combination (2 : Int) ^ k * hb - 2 ^ l * ha
  · intro h
    apply eq_of_isLowest (isLowest_halved a k) (isLowest_halved b l)
    apply mul_right_cancel₀ (mul_ne_zero (hne k) (hne l))
    linear_combination (2 : Int) ^ (halved b l).2 * 2 ^ l * ha - 2 ^ (halved a k).2 * 2 ^ k * hb +
      2 ^ (halved a k).2 * 2 ^ (halved b l).2 * h

theorem ofDyadic_injective : Function.Injective ofDyadic := by
  rintro ⟨a, k⟩ ⟨b, l⟩ h
  cases k with
  | zero =>
    cases l with
    | zero => simpa [ofDyadic] using h
    | succ l => cases h
  | succ k =>
    cases l with
    | zero => cases h
    | succ l =>
      simp only [ofDyadic, Number.double.injEq, Double.finite.injEq, decide_eq_decide] at h
      obtain ⟨hsign, habs, hexp⟩ := h
      have hab : a = b := by omega
      have hkl : k = l := by omega
      rw [hab, hkl]

theorem fraction_eq (negative : Bool) (m : Nat) (e : Int) :
    Double.fraction negative m e = (numerator negative m e, 2 ^ (-e).toNat) := by
  unfold Double.fraction Double.scale numerator
  by_cases he : 0 ≤ e
  · have hzero : (-e).toNat = 0 := by omega
    simp [if_pos he, hzero]
  · have hzero : e.toNat = 0 := by omega
    simp [if_neg he, hzero]

/-- Numbers with a value are compared by it. -/
theorem same_iff_of_dyadic {m n : Number} {p q : Int × Nat} (hm : m.dyadic? = some p)
    (hn : n.dyadic? = some q) : m.same n = true ↔ p.1 * 2 ^ q.2 = q.1 * 2 ^ p.2 := by
  have hdouble : ∀ {x : Double} {p : Int × Nat}, (Number.double x).dyadic? = some p →
      ∃ s m e, x = .finite s m e ∧ p = (numerator s m e, (-e).toNat) := by
    intro x p h
    cases x with
    | finite s m e => exact ⟨s, m, e, rfl, (Option.some.inj h).symm⟩
    | nan => cases h
    | infinite => cases h
  cases m with
  | int i =>
    cases hm
    cases n with
    | int j =>
      cases hn
      simp [same]
    | double y =>
      obtain ⟨s, m, e, rfl, rfl⟩ := hdouble hn
      simp only [same, Double.sameInt, fraction_eq, beq_iff_eq, pow_zero, mul_one, Nat.cast_pow,
        Nat.cast_ofNat]
      exact eq_comm
  | double x =>
    obtain ⟨s, m, e, rfl, rfl⟩ := hdouble hm
    cases n with
    | int j =>
      cases hn
      simp [same, Double.sameInt, fraction_eq]
    | double y =>
      obtain ⟨t, n, f, rfl, rfl⟩ := hdouble hn
      simp [same, Double.same, fraction_eq]

/-! A double that is not finite is the same as itself and nothing else, and is left as it is. -/

section

variable {x : Double} (hx : x.isFinite = false) (n : Number)

include hx

theorem same_left_iff : (Number.double x).same n = true ↔ n = .double x := by
  cases n with
  | int i => cases x <;> simp_all [same, Double.sameInt, Double.isFinite]
  | double y =>
    cases x <;> cases y <;> simp_all [same, Double.same, Double.isFinite]
    exact eq_comm

theorem same_right_iff : n.same (.double x) = true ↔ n = .double x := by
  cases n with
  | int i => cases x <;> simp_all [same, Double.sameInt, Double.isFinite]
  | double y => cases x <;> cases y <;> simp_all [same, Double.same, Double.isFinite]

theorem lowest_eq_iff : n.lowest = .double x ↔ n = .double x := by
  have hfinite : ∀ p, ofDyadic p ≠ .double x := by
    rintro ⟨a, k⟩ h
    cases k with
    | zero => cases h
    | succ k =>
      cases h
      cases hx
  match n with
  | .int i => exact iff_of_false (hfinite (halved i 0)) (by simp)
  | .double (.finite s m e) =>
    refine iff_of_false (hfinite (halved (numerator s m e) (-e).toNat)) ?_
    rintro ⟨⟩
    cases hx
  | .double .nan => exact Iff.rfl
  | .double (.infinite s) => exact Iff.rfl

end

theorem dyadic?_isSome (n : Number) :
    (∃ x : Double, x.isFinite = false ∧ n = .double x) ∨ ∃ p, n.dyadic? = some p := by
  match n with
  | .int i => exact Or.inr ⟨_, rfl⟩
  | .double (.finite s m e) => exact Or.inr ⟨_, rfl⟩
  | .double .nan => exact Or.inl ⟨.nan, rfl, rfl⟩
  | .double (.infinite s) => exact Or.inl ⟨.infinite s, rfl, rfl⟩

/-- Numbers are the same just if they agree in lowest terms. -/
theorem same_iff (m n : Number) : m.same n = true ↔ m.lowest = n.lowest := by
  rcases m.dyadic?_isSome with ⟨x, hx, rfl⟩ | ⟨p, hp⟩
  · rw [same_left_iff hx, (lowest_eq_iff hx (.double x)).2 rfl, ← lowest_eq_iff hx]
    exact eq_comm
  · rcases n.dyadic?_isSome with ⟨y, hy, rfl⟩ | ⟨q, hq⟩
    · rw [same_right_iff hy, (lowest_eq_iff hy (.double y)).2 rfl, lowest_eq_iff hy]
    · rw [same_iff_of_dyadic hp hq, lowest, lowest, hp, hq, ofDyadic_injective.eq_iff,
        halved_eq_iff]

end Number

/-! ## Values -/

namespace Json

def isKeyedNode : Json → Bool
  | .object members => decide ((members.map (·.1)).Nodup)
  | _ => true

/-- No object in the value has a name twice. -/
def isKeyed (v : Json) : Bool := everywhere isKeyedNode v

theorem isKeyed_of_isExact {v : Json} (h : v.isExact = true) : v.isKeyed = true := by
  refine everywhere_mono (fun w hw => ?_) v h
  cases w with
  | object members => exact hw
  | _ => rfl

mutual

/-- The normal form of a value. -/
def meaning : Json → Json
  | .bool b => .number (.int (if b then 1 else 0))
  | .number n => .number n.lowest
  | .array items => .array (meanings items)
  | .object members => .object (sortByName (meaningsUnder members))
  | v => v

def meanings : List Json → List Json
  | [] => []
  | v :: vs => meaning v :: meanings vs

def meaningsUnder : Members → Members
  | [] => []
  | (k, v) :: rest => (k, meaning v) :: meaningsUnder rest

end

theorem meaningsUnder_eq_map (ms : Members) :
    meaningsUnder ms = ms.map fun m => (m.1, m.2.meaning) := by
  induction ms with
  | nil => rfl
  | cons m ms ih => rw [meaningsUnder, ih, List.map_cons]

/-! ### Members by name -/

theorem get?_eq_some_iff {ms : Members} (h : (ms.map (·.1)).Nodup) {key : String} {v : Json} :
    get? key ms = some v ↔ (key, v) ∈ ms := by
  induction ms with
  | nil => simp [get?]
  | cons m ms ih =>
    obtain ⟨k, w⟩ := m
    rw [List.map_cons, List.nodup_cons] at h
    rw [get?, List.mem_cons]
    by_cases hk : k = key
    · subst hk
      have hnot : (k, v) ∉ ms := fun hmem => h.1 (List.mem_map.2 ⟨_, hmem, rfl⟩)
      simp [hnot, eq_comm]
    · rw [if_neg hk, ih h.2]
      simp [Ne.symm hk]

/-- Members with distinct names have one order by name. -/
theorem sortByName_eq_iff {ms ns : Members} (h : (ms.map (·.1)).Nodup) :
    sortByName ms = sortByName ns ↔ ms.Perm ns := by
  have hperm : ∀ ms : Members, (sortByName ms).Perm ms := fun ms => List.mergeSort_perm ms _
  constructor
  · intro heq
    exact (hperm ms).symm.trans (heq ▸ hperm ns)
  · intro hms
    have hsorted := (hperm ms).trans (hms.trans (hperm ns).symm)
    exact Text.eq_of_perm_of_names hsorted (((hperm ms).map _).nodup_iff.2 h)
      (pairwise_sortByName ms) (pairwise_sortByName ns)

theorem sameMembers_iff (ms ns : Members) :
    sameMembers ms ns = true ↔ ∀ m ∈ ms, ∃ y, get? m.1 ns = some y ∧ m.2.same y = true := by
  induction ms with
  | nil => simp [sameMembers]
  | cons m ms ih =>
    obtain ⟨k, x⟩ := m
    rw [sameMembers, List.forall_mem_cons, ← ih]
    cases get? k ns <;> simp

/-- Objects are the same just if they have the same members, whatever their order. -/
theorem same_object_iff {ms ns : Members} (hms : (ms.map (·.1)).Nodup) (hns : (ns.map (·.1)).Nodup)
    (h : ∀ m ∈ ms, ∀ n ∈ ns, (m.2.same n.2 = true ↔ m.2.meaning = n.2.meaning)) :
    (Json.object ms).same (.object ns) = true ↔
      (Json.object ms).meaning = (Json.object ns).meaning := by
  have hnames : (meaningsUnder ms).map (·.1) = ms.map (·.1) := by
    rw [meaningsUnder_eq_map, List.map_map]
    rfl
  have hdistinct : ((meaningsUnder ms).map (·.1)).Nodup := hnames ▸ hms
  have hsubset : sameMembers ms ns = true ↔ meaningsUnder ms ⊆ meaningsUnder ns := by
    rw [sameMembers_iff, meaningsUnder_eq_map, meaningsUnder_eq_map]
    constructor
    · intro hsame p hp
      obtain ⟨m, hm, rfl⟩ := List.mem_map.1 hp
      obtain ⟨y, hget, hy⟩ := hsame m hm
      have hmem : (m.1, y) ∈ ns := (get?_eq_some_iff hns).1 hget
      exact List.mem_map.2 ⟨_, hmem, by rw [(h m hm _ hmem).1 hy]⟩
    · intro hsub m hm
      obtain ⟨n, hn, heq⟩ := List.mem_map.1 (hsub (List.mem_map_of_mem hm))
      obtain ⟨hname, hmeaning⟩ := Prod.mk.inj heq
      exact ⟨n.2, (get?_eq_some_iff hns).2 (hname ▸ hn), (h m hm n hn).2 hmeaning.symm⟩
  have hlength : ms.length = ns.length ↔
      (meaningsUnder ms).length = (meaningsUnder ns).length := by
    rw [meaningsUnder_eq_map, meaningsUnder_eq_map, List.length_map, List.length_map]
  rw [same, Bool.and_eq_true, beq_iff_eq, hlength, hsubset, meaning, meaning, Json.object.injEq,
    sortByName_eq_iff hdistinct]
  constructor
  · rintro ⟨hlength, hsubset⟩
    exact (List.subperm_of_subset hdistinct.of_map hsubset).perm_of_length_le hlength.ge
  · intro hperm
    exact ⟨hperm.length_eq, hperm.subset⟩

/-! ### Values by their normal forms -/

theorem same_number_iff (n : Number) (w : Json) :
    (Json.number n).same w = true ↔ (Json.number n).meaning = w.meaning := by
  cases w with
  | bool b => simp [same, number?, meaning, Number.same_iff]
  | number m => simp [same, number?, meaning, Number.same_iff]
  | _ => simp [same, number?, meaning]

mutual

/-- Values are the same just if they have the same normal form. -/
theorem same_iff (v w : Json) (hv : v.isKeyed = true) (hw : w.isKeyed = true) :
    v.same w = true ↔ v.meaning = w.meaning := by
  match v with
  | .null => cases w <;> simp [same, meaning]
  | .text s => cases w <;> simp [same, meaning]
  | .bool b =>
    have hsame : (Json.bool b).same w = (Json.int (if b then 1 else 0)).same w := by
      simp [same, Json.int]
    rw [hsame, meaning, ← Number.lowest_int, ← meaning]
    exact same_number_iff _ w
  | .number n => exact same_number_iff n w
  | .array items =>
    cases w with
    | array others =>
      rw [isKeyed, everywhere, Bool.and_eq_true] at hv hw
      rw [same, meaning, meaning, Json.array.injEq]
      exact sameItems_iff items others hv.2 hw.2
    | _ => simp [same, meaning]
  | .object members =>
    cases w with
    | object others =>
      rw [isKeyed, everywhere, Bool.and_eq_true] at hv hw
      have hothers := everywhereUnder_iff.1 hw.2
      apply same_object_iff (of_decide_eq_true hv.1) (of_decide_eq_true hw.1)
      intro m hm n hn
      exact same_iff_under members hv.2 m hm n.2 (hothers n hn)
    | _ => simp [same, meaning]

theorem sameItems_iff (vs ws : List Json) (hv : everywhereIn isKeyedNode vs = true)
    (hw : everywhereIn isKeyedNode ws = true) :
    sameItems vs ws = true ↔ meanings vs = meanings ws := by
  match vs, ws with
  | [], [] => simp [sameItems]
  | [], _ :: _ => simp [sameItems, meanings]
  | _ :: _, [] => simp [sameItems, meanings]
  | v :: vs, w :: ws =>
    rw [everywhereIn, Bool.and_eq_true] at hv hw
    rw [sameItems, Bool.and_eq_true, meanings, meanings, List.cons.injEq,
      same_iff v w hv.1 hw.1, sameItems_iff vs ws hv.2 hw.2]

theorem same_iff_under (ms : Members) (h : everywhereUnder isKeyedNode ms = true) :
    ∀ m ∈ ms, ∀ w : Json, w.isKeyed = true → (m.2.same w = true ↔ m.2.meaning = w.meaning) := by
  match ms with
  | [] => simp
  | (k, v) :: ms =>
    rw [everywhereUnder, Bool.and_eq_true] at h
    exact List.forall_mem_cons.2 ⟨fun w => same_iff v w h.1, same_iff_under ms h.2⟩

end

end Json

end EventFlow
