import EventFlow.Proofs.Emission.Declarations

/-! Stubs can be declared.

The type of a stub's field is built from example data, and the keys of nested objects stand in it as
they are. A key is harmless there if it is code on one line that leaves the brace before it open:

    unclosedAfter ["}"] (lexemes of the key and a colon) = some ["}"]

Then all types that are inferred from the data are types of fields, and the stub is read back from
its declaration. A key such as `it's` opens a text that is never closed. -/

namespace EventFlow

namespace Declaration

open Text Token

variable {ls : List Lexeme} {S : List String} {t : String}

/-! ## Brackets left open -/

/-- The brackets to be closed after a lexeme, those of `unclosed` before it. -/
def afterLexeme (unclosed : List String) : Lexeme → Option (List String)
  | .punct mark =>
    match closer? mark, unclosed with
    | some closing, _ => some (closing :: unclosed)
    | none, closing :: outer =>
      if isClosing mark then if mark = closing then some outer else none else some unclosed
    | none, [] => if isClosing mark || [";", ","].contains mark then none else some []
  | .eof => none
  | _ => some unclosed

def unclosedAfter (unclosed : List String) (ls : List Lexeme) : Option (List String) :=
  ls.foldlM afterLexeme unclosed

theorem nests_cons (unclosed : List String) (l : Lexeme) (ls : List Lexeme) :
    nests unclosed (l :: ls) = (afterLexeme unclosed l).any (nests · ls) := by
  cases l with
  | punct mark =>
    cases hcloser : closer? mark with
    | some closing => simp [nests, afterLexeme, hcloser]
    | none =>
      cases unclosed with
      | nil =>
        simp only [nests, afterLexeme, hcloser]
        cases isClosing mark <;> cases [";", ","].contains mark <;> rfl
      | cons closing outer =>
        simp only [nests, afterLexeme, hcloser]
        by_cases hmark : mark = closing <;> cases isClosing mark <;> simp [hmark]
  | eof => rfl
  | _ => rfl

theorem nests_iff {unclosed : List String} :
    nests unclosed ls = true ↔ unclosedAfter unclosed ls = some [] := by
  induction ls generalizing unclosed with
  | nil => simp [nests, unclosedAfter]
  | cons l ls ih =>
    rw [nests_cons, unclosedAfter, List.foldlM_cons]
    cases afterLexeme unclosed l with
    | none => simp
    | some next => exact ih

theorem unclosedAfter_append {T : List String} {a : List Lexeme} (h : unclosedAfter S a = some T)
    (b : List Lexeme) : unclosedAfter S (a ++ b) = unclosedAfter T b := by
  rw [unclosedAfter, List.foldlM_append, show List.foldlM afterLexeme S a = some T from h]
  rfl

/-- Brackets further out stay as they are. -/
theorem afterLexeme_outer {T : List String} {l : Lexeme} (h : afterLexeme S l = some T)
    (u : List String) : afterLexeme (S ++ u) l = some (T ++ u) := by
  cases l with
  | punct mark =>
    unfold afterLexeme at h ⊢
    cases hcloser : closer? mark with
    | some closing =>
      simp only [hcloser, Option.some.injEq] at h ⊢
      rw [← h]
      rfl
    | none =>
      cases S with
      | cons closing outer =>
        simp only [hcloser, List.cons_append] at h ⊢
        split at h
        · next hclosing =>
          split at h
          · next hmark =>
            rw [if_pos hclosing, if_pos hmark]
            exact congrArg _ (congrArg (· ++ u) (Option.some.inj h))
          · cases h
        · next hclosing =>
          rw [if_neg hclosing, ← Option.some.inj h]
          rfl
      | nil =>
        simp only [hcloser, List.nil_append] at h ⊢
        split at h
        · cases h
        · next hno =>
          obtain rfl := Option.some.inj h
          rw [Bool.not_eq_true, Bool.or_eq_false_iff] at hno
          cases u with
          | nil => simp only [hno, Bool.or_self, Bool.false_eq_true, if_false, List.nil_append]
          | cons closing outer => simp only [hno.1, Bool.false_eq_true, if_false, List.nil_append]
  | eof => cases h
  | identifier name => exact congrArg _ (congrArg (· ++ u) (Option.some.inj h))
  | text value => exact congrArg _ (congrArg (· ++ u) (Option.some.inj h))
  | template value marked => exact congrArg _ (congrArg (· ++ u) (Option.some.inj h))
  | number value => exact congrArg _ (congrArg (· ++ u) (Option.some.inj h))

theorem unclosedAfter_outer {T : List String} (h : unclosedAfter S ls = some T) (u : List String) :
    unclosedAfter (S ++ u) ls = some (T ++ u) := by
  induction ls generalizing S with
  | nil =>
    cases h
    rfl
  | cons l ls ih =>
    rw [unclosedAfter, List.foldlM_cons] at h
    obtain ⟨next, hnext, h⟩ := Option.bind_eq_some_iff.1 h
    rw [unclosedAfter, List.foldlM_cons, afterLexeme_outer hnext u]
    exact ih h

/-- A type in brackets leaves them as they are. -/
theorem unclosedAfter_type (h : nests [] ls = true) : unclosedAfter S ls = some S :=
  unclosedAfter_outer (nests_iff.1 h) S

/-! ## Types of fields -/

theorem isFieldType_of_inline (hcode : Inline t ls) (hnests : nests [] ls = true) (hne : t ≠ "")
    (hsqueeze : squeeze t = t) : isFieldType t = true := by
  have hplain : ls.all (!isTemplate ·) = true := by simpa using hcode.plain
  have hempty : t.isEmpty = false := by simpa [String.isEmpty_iff] using hne
  simp [isFieldType, hcode.code.codeIn_eq, hnests, hempty, hsqueeze, -List.all_eq_true, hplain]

/-- A type that can stand before a closing angle bracket. -/
def isInnerType (t : String) : Bool := isFieldType t && (isFullName t || closed t)

theorem ne_empty_of_closed (h : closed t = true) : t ≠ "" := by
  rintro rfl
  cases h

/-- What stands between a bracket that `head` ends with and the mark that closes it. -/
theorem isInnerType_enclosed {head mark : String} {hs : List Lexeme} (hhead : Inline head hs)
    (hopens : unclosedAfter [] hs = some [mark]) (hclosed : closed head = true)
    (hsqueezed : squeeze head = head) (hcode : Inline (t ++ mark) (ls ++ [.punct mark]))
    (hkeeps : unclosedAfter [mark] ls = some [mark]) (hne : t ≠ "") (hsqueeze : squeeze t = t)
    (hcloses : afterLexeme [mark] (.punct mark) = some []) (hend : closed mark = true)
    (hmark : squeeze mark = mark) : isInnerType (head ++ t ++ mark) = true := by
  have hnests : nests [] (hs ++ (ls ++ [.punct mark])) = true := by
    rw [nests_iff, unclosedAfter_append hopens, unclosedAfter_append hkeeps, unclosedAfter,
      List.foldlM_cons, hcloses]
    rfl
  have htail := squeeze_append hsqueeze hne hmark (ne_empty_of_closed hend)
  have hwhole := squeeze_append hsqueezed (ne_empty_of_closed hclosed) htail
    (ne_empty_of_closed (closed_append hend))
  have hlast : closed (head ++ (t ++ mark)) = true := closed_append (closed_append hend)
  rw [String.append_assoc, isInnerType, hlast, Bool.or_true, Bool.and_true]
  exact isFieldType_of_inline (hhead.append hcode (Or.inl hclosed)) hnests
    (ne_empty_of_closed hlast) hwhole

theorem exists_inline_angle (h : isInnerType t = true) :
    ∃ ls, Inline (t ++ ">") (ls ++ [.punct ">"]) ∧ nests [] ls = true := by
  rw [isInnerType, Bool.and_eq_true, Bool.or_eq_true] at h
  have hangle : Inline ">" [.punct ">"] := Inline.of_mem_marks (by decide)
  obtain ⟨ls, hcode, hnests, -, -⟩ := exists_of_isFieldType h.1
  rcases h.2 with hname | hclosed
  · refine ⟨[.identifier t], Inline.name_append hname hangle ?_, rfl⟩
    rintro y ⟨⟩
    decide
  · exact ⟨ls, hcode.append hangle (Or.inl hclosed), hnests⟩

theorem isInnerType_array (h : isInnerType t = true) :
    isInnerType ("Array<" ++ t ++ ">") = true := by
  obtain ⟨ls, hcode, hnests⟩ := exists_inline_angle h
  rw [isInnerType, Bool.and_eq_true] at h
  obtain ⟨-, -, -, hne, hsqueeze⟩ := exists_of_isFieldType h.1
  have hhead : Inline "Array<" [.identifier "Array", .punct "<"] := Inline.of_check
  exact isInnerType_enclosed hhead (by decide) (by decide) (by decide +kernel) hcode
    (unclosedAfter_type hnests) hne hsqueeze (by decide) (by decide) (by decide +kernel)

/-! ## Objects -/

/-- A key that can stand in the type of a field: code on one line, with single spaces and without
templates, that leaves the brace before it open. -/
def isInnerKey (key : String) : Bool :=
  squeeze (key ++ ":") == key ++ ":" &&
    (codeIn (key ++ ":").toList).any fun ls =>
      unclosedAfter [r"}"] ls == some [r"}"] && ls.all (!isTemplate ·)

/-- What can stand in braces in the type of a field. -/
structure IsInner (t : String) (ls : List Lexeme) : Prop where
  code : Inline t ls
  unclosed : unclosedAfter [r"}"] ls = some [r"}"]
  ne : t ≠ ""
  squeezed : squeeze t = t

theorem exists_isInner_key {key : String} (h : isInnerKey key = true) :
    ∃ ls, IsInner (key ++ ":") ls := by
  simp only [isInnerKey, Bool.and_eq_true, beq_iff_eq, Option.any_eq_true] at h
  obtain ⟨hsqueeze, ls, hcode, hopen, hplain⟩ := h
  have hflat : '\n' ∉ (key ++ ":").toList := fun hmem =>
    absurd ((isTrimmed_of_squeeze hsqueeze).2.2 _ hmem (by decide)) (by decide)
  exact ⟨ls, ⟨Code.of_codeIn hcode, hflat, by simpa using hplain⟩, hopen,
    ne_empty_of_closed (closed_append (by decide)), hsqueeze⟩

theorem exists_isInner_type (h : isFieldType t = true) : ∃ ls, IsInner t ls := by
  obtain ⟨ls, hcode, hnests, hne, hsqueeze⟩ := exists_of_isFieldType h
  exact ⟨ls, hcode, unclosedAfter_type hnests, hne, hsqueeze⟩

/-- Two parts with a mark and a space between them. -/
theorem IsInner.append {a b : String} {la lb : List Lexeme} (ha : IsInner a la)
    (hb : IsInner b lb) (hclosed : closed a = true) : IsInner (a ++ " " ++ b) (la ++ lb) where
  code := by
    have hspace := ha.code.append (Inline.blanks (s := " ") (by decide)) (Or.inl hclosed)
    rw [List.append_nil] at hspace
    exact hspace.append hb.code (Or.inl (closed_append (by decide)))
  unclosed := by rw [unclosedAfter_append ha.unclosed, hb.unclosed]
  ne := by
    rw [String.append_assoc]
    intro h
    exact ha.ne (String.append_eq_empty_iff.1 h).1
  squeezed := squeeze_append_space ha.squeezed ha.ne hb.squeezed hb.ne

theorem IsInner.comma (h : IsInner t ls) :
    IsInner (t ++ ",") (ls ++ [.punct ","]) where
  code := h.code.append (Inline.of_mem_marks (by decide)) (Or.inr (by decide))
  unclosed := by
    rw [unclosedAfter_append h.unclosed]
    rfl
  ne := ne_empty_of_closed (closed_append (by decide))
  squeezed := squeeze_append h.squeezed h.ne (by decide +kernel) (by decide)

theorem exists_isInner_member {key : String} (hkey : isInnerKey key = true)
    (ht : isFieldType t = true) : ∃ ls, IsInner (key ++ ": " ++ t) ls := by
  obtain ⟨ks, hks⟩ := exists_isInner_key hkey
  obtain ⟨ls, hls⟩ := exists_isInner_type ht
  have htext : key ++ ": " ++ t = key ++ ":" ++ " " ++ t := by
    rw [show ": " = ":" ++ " " by decide, ← String.append_assoc]
  exact ⟨ks ++ ls, htext ▸ hks.append hls (closed_append (by decide))⟩

theorem exists_isInner_joinWith {ts : List String} (h : ∀ t ∈ ts, ∃ ls, IsInner t ls)
    (hne : ts ≠ []) : ∃ ls, IsInner (joinWith ", " ts) ls := by
  induction ts with
  | nil => exact absurd rfl hne
  | cons t ts ih =>
    obtain ⟨ls, hls⟩ := h t List.mem_cons_self
    cases ts with
    | nil => exact ⟨ls, hls⟩
    | cons u ts =>
      obtain ⟨ms, hms⟩ := ih (fun v hv => h v (List.mem_cons_of_mem _ hv)) (List.cons_ne_nil _ _)
      have htext : joinWith ", " (t :: u :: ts) =
          t ++ "," ++ " " ++ joinWith ", " (u :: ts) := by
        have hcomma : t ++ "," ++ " " = t ++ ", " := String.append_assoc
        rw [joinWith_cons_cons, hcomma]
      exact ⟨_, htext ▸ hls.comma.append hms (closed_append (by decide))⟩

theorem isInnerType_object {ts : List String} (h : ∀ t ∈ ts, ∃ ls, IsInner t ls) :
    isInnerType (r"{" ++ joinWith ", " ts ++ r"}") = true := by
  by_cases hts : ts = []
  · subst hts
    decide +kernel
  obtain ⟨ls, hls⟩ := exists_isInner_joinWith h hts
  have hopen : Inline r"{" [.punct r"{"] := Inline.of_mem_marks (by decide)
  exact isInnerType_enclosed hopen (by decide) (by decide) (by decide +kernel)
    (hls.code.append Inline.blockEnd (Or.inr (by decide))) hls.unclosed hls.ne hls.squeezed
    (by decide) (by decide) (by decide +kernel)

end Declaration

namespace Message

open Declaration Token

mutual

/-- All keys of objects in the value can stand in a type; of an array, the first item counts. -/
def hasInnerKeys : Json → Bool
  | .array (first :: _) => hasInnerKeys first
  | .object members => hasInnerKeysIn members
  | _ => true

def hasInnerKeysIn : Json.Members → Bool
  | [] => true
  | (key, value) :: rest => isInnerKey key && hasInnerKeys value && hasInnerKeysIn rest

end

mutual

theorem isInnerType_inferType (v : Json) (h : hasInnerKeys v = true) :
    isInnerType (inferType v) = true := by
  match v with
  | .null => decide +kernel
  | .bool _ =>
    rw [inferType]
    decide +kernel
  | .number _ =>
    rw [inferType]
    decide +kernel
  | .text s =>
    rw [inferType]
    split <;> decide +kernel
  | .array [] => decide +kernel
  | .array (first :: rest) => exact isInnerType_array (isInnerType_inferType first h)
  | .object members => exact isInnerType_object (exists_isInner_inferMembers members h)

theorem exists_isInner_inferMembers (members : Json.Members) (h : hasInnerKeysIn members = true) :
    ∀ t ∈ inferMembers members, ∃ ls, IsInner t ls := by
  match members with
  | [] => simp [inferMembers]
  | (key, value) :: rest =>
    simp only [hasInnerKeysIn, Bool.and_eq_true] at h
    obtain ⟨⟨hkey, hvalue⟩, hrest⟩ := h
    intro t ht
    rcases List.mem_cons.1 ht with rfl | ht
    · have htype := isInnerType_inferType value hvalue
      rw [isInnerType, Bool.and_eq_true] at htype
      exact exists_isInner_member hkey htype.1
    · exact exists_isInner_inferMembers rest hrest t ht

end

theorem proper_infer (d : Nat) {name : String} (kind : MessageKind) {data : Json.Members}
    (hname : isFullName name = true) (hkeys : ∀ p ∈ data, Inline.isCleanKey p.1 = true)
    (hdistinct : (data.map (·.1)).Nodup) (hinner : ∀ p ∈ data, hasInnerKeys p.2 = true) :
    (infer name kind data).Proper d where
  name := hname
  fields := by
    intro f hf
    obtain ⟨p, hp, rfl⟩ := List.mem_map.1 hf
    have htype := isInnerType_inferType p.2 (hinner p hp)
    rw [isInnerType, Bool.and_eq_true] at htype
    exact
      { key := hkeys p hp
        type := htype.1
        description := by rintro s ⟨⟩
        start := by rintro - s ⟨⟩
        exact := rfl
        depth := Nat.zero_le d
        closed := show ¬ ['*', '/'] <:+: Json.null.write.toList by decide +kernel }
  distinct := by
    rw [infer, List.map_map]
    exact hdistinct
  description := by rintro s ⟨⟩
  start := by rintro - s ⟨⟩
  version := Int.one_nonneg
  short := show (1 : Int) < Number.digitLimit by decide +kernel

/-- A stub is read back from its declaration if the keys of the objects in its example data are
code that leaves the braces around it open. -/
theorem infer_declares (d : Nat) (name : String) (kind : MessageKind) (data : Json.Members)
    (hname : isFullName name = true) (hkeys : ∀ p ∈ data, Inline.isCleanKey p.1 = true)
    (hdistinct : (data.map (·.1)).Nodup) (hinner : ∀ p ∈ data, hasInnerKeys p.2 = true) :
    ∃ lines, Emission.messageLines (infer name kind data) = .ok lines ∧
      scan lines = [⟨name, 0, lines.length - 1, .closed⟩] ∧
      table d lines (scan lines) = .ok ⟨[infer name kind data], [(name, name)], [], []⟩ := by
  have h := proper_infer d kind hname hkeys hdistinct hinner
  have hlines := Emission.messageLines_eq h
  have hscan := Emission.scan_message h
  have htable := Emission.table_message h
  -- a stub has neither a description nor a version to say, so no comment is before its code
  have hcomment : Emission.messageComment (infer name kind data) = [] := rfl
  rw [hcomment, List.nil_append] at hscan htable
  refine ⟨Emission.messageCode (infer name kind data), hlines, ?_, hscan ▸ htable⟩
  rw [hscan, Emission.placeFrom, List.length_nil, Nat.zero_add]
  rfl

/-- Example data with keys that are no names. -/
def order : Json.Members :=
  [("it's", .object [("item-id", .array [.object [("", .null), ("a b", .bool true)], .null]),
      ("at", .text "2024-01-02T03:04:05Z")]),
    ("total", .array [.number (.int 3)])]

theorem infer_declares_order :
    isFullName "Order" = true ∧ (∀ p ∈ order, Inline.isCleanKey p.1 = true) ∧
      (order.map (·.1)).Nodup ∧ (∀ p ∈ order, hasInnerKeys p.2 = true) ∧
      ∃ lines, Emission.messageLines (infer "Order" .state order) = .ok lines ∧
        scan lines = [⟨"Order", 0, lines.length - 1, .closed⟩] ∧
        table ({} : Config).nestingLimit lines (scan lines) =
          .ok ⟨[infer "Order" .state order], [("Order", "Order")], [], []⟩ := by
  have hname : isFullName "Order" = true := by decide +kernel
  have hkeys : ∀ p ∈ order, Inline.isCleanKey p.1 = true := by decide +kernel
  have hdistinct : (order.map (·.1)).Nodup := by decide +kernel
  have hinner : ∀ p ∈ order, hasInnerKeys p.2 = true := by decide +kernel
  exact ⟨hname, hkeys, hdistinct, hinner,
    infer_declares _ "Order" .state order hname hkeys hdistinct hinner⟩

/-- A key with a quote in it opens a text, and the declaration of the stub has no end. -/
theorem table_infer_apostrophe :
    let stub := infer "M" .event [("x", .object [("it's", .number (.int 1))])]
    let lines := [r"type M = Event<'M', {", r"  x: {it's: number};", r"}>;"]
    stub.fields = [{ name := "x", type := r"{it's: number}", required := true }] ∧
      Emission.messageLines stub = .ok lines ∧ scan lines = [⟨"M", 0, 2, .missing⟩] ∧
      table ({} : Config).nestingLimit lines (scan lines) =
        .error ⟨.unterminated "M", some 1, none⟩ :=
  ⟨rfl, by decide +kernel, by decide +kernel, by decide +kernel⟩

end Message

end EventFlow
