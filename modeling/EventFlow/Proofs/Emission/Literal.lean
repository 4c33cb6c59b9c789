import EventFlow.Extraction.Literal
import EventFlow.Proofs.Emission.Writing
import EventFlow.Proofs.Json.Exact

/-! Literals give back the data that they are written for.

    Writes d (literal v) (fun e => Extraction.literal e = ok v)        for exact data v

The proof follows the value: an array and an object are read as what their parts are read as, and
the depth of the grammar goes down by one with each container. -/

namespace EventFlow.Emission

open Extraction (literals)

variable {ms : Json.Members}

/-- The expression denotes the data. -/
def Denotes (v : Json) (e : Expr) : Prop := Extraction.literal e = .ok v

/-- The entry of an object denotes a member. -/
def DenotesMember (m : String × Json) (p : Property) : Prop :=
  ∃ line e, p = .keyed line m.1 e ∧ Denotes m.2 e

theorem literals_of_denotes {es : List Expr} {vs : List Json}
    (h : List.Forall₂ (fun e v => Denotes v e) es vs) : literals es = .ok vs := by
  induction h with
  | nil => rfl
  | cons he _ ih =>
    rw [literals, he, ih]
    rfl

theorem literalMembers_of_denotes {ps : List Property}
    (h : List.Forall₂ (fun p m => DenotesMember m p) ps ms) :
    Extraction.literalMembers ps = .ok ms := by
  induction h with
  | nil => rfl
  | cons hp _ ih =>
    obtain ⟨line, e, rfl, he⟩ := hp
    rw [Extraction.literalMembers, he, ih]
    rfl

/-- An object literal with the given members. -/
def IsObject (ms : Json.Members) (e : Expr) : Prop :=
  ∃ line ps, e = .object line ps ∧ Extraction.literalMembers ps = .ok ms

theorem IsObject.denotes {e : Expr} (h : IsObject ms e) (hms : (ms.map (·.1)).Nodup) :
    Denotes (.object ms) e := by
  obtain ⟨line, ps, rfl, hps⟩ := h
  rw [Denotes, Extraction.literal, hps]
  show Except.ok (Json.object (Json.ofPairs ms)) = _
  rw [Json.ofPairs_of_nodup hms]

/-- The members of an object, once each of them is written. -/
theorem writes_object {ts : List String} {d : Nat} (hts : Emission.literalMembers ms = .ok ts)
    (h : List.Forall₂ (fun t m => WritesMember d t (DenotesMember m)) ts ms) :
    ∃ t, Emission.literal (.object ms) = .ok t ∧ Writes d t (IsObject ms) := by
  cases ms with
  | nil =>
    refine ⟨"{}", by rw [Emission.literal], (Writes.emptyObject d).mono ?_⟩
    rintro e ⟨line, rfl⟩
    exact ⟨line, [], rfl, rfl⟩
  | cons m ms =>
    refine ⟨r"{ " ++ Text.joinWith ", " ts ++ r" }", ?_, (Writes.object h).mono ?_⟩
    · rw [Emission.literal, hts]
      · rfl
      · simp
    · rintro e ⟨line, ps, rfl, hps⟩
      exact ⟨line, ps, rfl, literalMembers_of_denotes hps⟩

theorem writes_number {n : Number} (hexact : Json.isExact (.number n) = true) (d : Nat) :
    ∃ t, Emission.literal (.number n) = .ok t ∧ Writes d t (Denotes (.number n)) := by
  have hnode : Json.isExactNode (.number n) = true := hexact
  cases n with
  | double x => cases hnode
  | int i =>
    have hlong : (Number.int i).isLong = false := by
      rwa [Json.isExactNode, Bool.not_eq_true'] at hnode
    have hlt : i.natAbs < Number.digitLimit := by
      rw [Number.isLong, decide_eq_false_iff_not] at hlong
      exact Nat.lt_of_not_le hlong
    refine ⟨Number.writeInt i, ?_, (Writes.int d hlt).mono ?_⟩
    · rw [Emission.literal, numberLiteral, if_neg (by rw [hlong]; decide)]
    · rintro e ⟨line, rfl⟩
      rfl

mutual

/-- A literal is written for all exact data, and denotes them. -/
theorem writes_literal (v : Json) {d : Nat} (hexact : v.isExact = true)
    (hkeys : v.hasCleanKeys = true) (hdepth : v.depth ≤ d) :
    ∃ t, Emission.literal v = .ok t ∧ Writes d t (Denotes v) := by
  match v with
  | .null =>
    refine ⟨"null", by rw [Emission.literal], (Writes.null d).mono ?_⟩
    rintro e ⟨line, rfl⟩
    rfl
  | .bool b =>
    refine ⟨_, by rw [Emission.literal], (Writes.boolean d b).mono ?_⟩
    rintro e ⟨line, rfl⟩
    rfl
  | .number n => exact writes_number hexact d
  | .text s =>
    refine ⟨quote s, by rw [Emission.literal], (Writes.text d s).mono ?_⟩
    rintro e ⟨line, rfl⟩
    rfl
  | .array items =>
    rw [Json.depth] at hdepth
    obtain ⟨d, rfl⟩ : ∃ k, d = k + 1 := ⟨d - 1, by omega⟩
    simp only [Json.isExact, Json.hasCleanKeys, Json.everywhere, Bool.and_eq_true] at hexact hkeys
    obtain ⟨ts, hts, hwrites⟩ := writes_literalItems items hexact.2 hkeys.2
      (Nat.le_of_succ_le_succ hdepth)
    refine ⟨bracketed ts, ?_, (Writes.array hwrites).mono ?_⟩
    · rw [Emission.literal, hts]
      rfl
    · rintro e ⟨line, es, rfl, hes⟩
      rw [Denotes, Extraction.literal, literals_of_denotes hes]
      rfl
  | .object members =>
    rw [Json.depth] at hdepth
    obtain ⟨d, rfl⟩ : ∃ k, d = k + 1 := ⟨d - 1, by omega⟩
    simp only [Json.isExact, Json.hasCleanKeys, Json.everywhere, Bool.and_eq_true] at hexact hkeys
    obtain ⟨ts, hts, hwrites⟩ := writes_literalMembers members hexact.2 hkeys.2 hkeys.1
      (Nat.le_of_succ_le_succ hdepth)
    obtain ⟨t, ht, hobject⟩ := writes_object hts hwrites
    refine ⟨t, ht, hobject.mono fun e he => he.denotes ?_⟩
    simpa [Json.isExactNode] using hexact.1

theorem writes_literalItems (vs : List Json) {d : Nat}
    (hexact : Json.everywhereIn Json.isExactNode vs = true)
    (hkeys : Json.everywhereIn Json.isCleanNode vs = true) (hdepth : Json.depthIn vs ≤ d) :
    ∃ ts, literalItems vs = .ok ts ∧
      List.Forall₂ (fun t v => Writes d t (Denotes v)) ts vs := by
  match vs with
  | [] => exact ⟨[], by rw [literalItems], .nil⟩
  | v :: vs =>
    simp only [Json.everywhereIn, Bool.and_eq_true] at hexact hkeys
    rw [Json.depthIn, Nat.max_le] at hdepth
    obtain ⟨t, ht, hw⟩ := writes_literal v hexact.1 hkeys.1 hdepth.1
    obtain ⟨ts, hts, hws⟩ := writes_literalItems vs hexact.2 hkeys.2 hdepth.2
    refine ⟨t :: ts, ?_, .cons hw hws⟩
    rw [literalItems, ht, hts]
    rfl

theorem writes_literalMembers (ms : Json.Members) {d : Nat}
    (hexact : Json.everywhereUnder Json.isExactNode ms = true)
    (hkeys : Json.everywhereUnder Json.isCleanNode ms = true)
    (hclean : ms.all (fun m => Token.Inline.isCleanKey m.1) = true)
    (hdepth : Json.depthUnder ms ≤ d) :
    ∃ ts, Emission.literalMembers ms = .ok ts ∧
      List.Forall₂ (fun t m => WritesMember (d + 1) t (DenotesMember m)) ts ms := by
  match ms with
  | [] => exact ⟨[], by rw [Emission.literalMembers], .nil⟩
  | (k, v) :: ms =>
    simp only [Json.everywhereUnder, Bool.and_eq_true, List.all_cons] at hexact hkeys hclean
    rw [Json.depthUnder, Nat.max_le] at hdepth
    obtain ⟨t, ht, hw⟩ := writes_literal v hexact.1 hkeys.1 hdepth.1
    obtain ⟨ts, hts, hws⟩ := writes_literalMembers ms hexact.2 hkeys.2 hclean.2 hdepth.2
    refine ⟨(propertyKey k ++ ": " ++ t) :: ts, ?_, .cons (WritesMember.keyed hclean.1 hw) hws⟩
    rw [Emission.literalMembers, ht, hts]
    rfl

end

/-- Exact objects, as examples have them. -/
theorem writes_objectLiteral (ms : Json.Members) {d : Nat}
    (hexact : Json.isExact (.object ms) = true) (hkeys : Json.hasCleanKeys (.object ms) = true)
    (hdepth : Json.depth (.object ms) ≤ d) :
    ∃ t, Emission.literal (.object ms) = .ok t ∧ Writes d t (IsObject ms) := by
  rw [Json.depth] at hdepth
  obtain ⟨d, rfl⟩ : ∃ k, d = k + 1 := ⟨d - 1, by omega⟩
  simp only [Json.isExact, Json.hasCleanKeys, Json.everywhere, Bool.and_eq_true] at hexact hkeys
  obtain ⟨ts, hts, hwrites⟩ := writes_literalMembers ms hexact.2 hkeys.2 hkeys.1
    (Nat.le_of_succ_le_succ hdepth)
  exact writes_object hts hwrites

end EventFlow.Emission
