import EventFlow.Json.Reader
import EventFlow.Json.Writer
import EventFlow.Proofs.Json.Exact
import EventFlow.Proofs.Text.Blank

/-! Documents are read back as they were written.

    quoted (quote s ++ rest)        = ok (s, rest)
    value d (writeChars v ++ rest)  = ok (v, rest)
    readWithin d (write v)          = ok v

The value has to be exact and no deeper than `d`, and `rest` must not go on with a number: it is
empty or starts with a comma or a closing bracket. -/

namespace EventFlow.Json

open Text

variable {c : Char} {cs rest : List Char} {units : List Nat} {v : Json} {item : Reader Json}
  {vs : List Json} {ms : Members}

/-! ## Texts -/

theorem textUnits_simple (start : List Char) {e : Char} (he : simpleEscape? e = some c)
    (h : textUnits start cs = .ok (units, rest)) :
    textUnits start ('\\' :: e :: cs) = .ok (c.toNat :: units, rest) := by
  have hu : e ≠ 'u' := by
    rintro rfl
    cases he
  rw [textUnits.eq_6 _ _ _ (by simp [hu]) (by simp [hu])]
  simp only [he, h]
  rfl

theorem textUnits_unit (start : List Char) {n : Nat} (hn : n < 0x10000)
    (h : textUnits start cs = .ok (units, rest)) :
    textUnits start (['\\', 'u'] ++ toHexs 4 n ++ cs) = .ok (n :: units, rest) := by
  have hall := all_isHex_toHexs 4 n
  have hval : ofHexs (toHexs 4 n) = n := by
    rw [ofHexs_toHexs]
    omega
  simp only [toHexs, List.nil_append, List.cons_append] at hall hval ⊢
  cases cs with
  | nil => simp [textUnits] at h
  | cons next cs =>
    rw [textUnits, if_pos hall, h, hval]
    rfl

theorem textUnits_plain (start : List Char) (hlow : 0x20 ≤ c.toNat) (hq : c ≠ '"') (hb : c ≠ '\\')
    (h : textUnits start cs = .ok (units, rest)) :
    textUnits start (c :: cs) = .ok (c.toNat :: units, rest) := by
  rw [textUnits.eq_def]
  split <;> simp_all

/-- A character beyond the first plane is the one that its two surrogates stand for. -/
theorem ofUnits_surrogates (c : Char) (h : 0x10000 ≤ c.toNat) (units : List Nat) :
    ofUnits ((0xd800 + (c.toNat - 0x10000) / 0x400) ::
      (0xdc00 + (c.toNat - 0x10000) % 0x400) :: units) = c :: ofUnits units := by
  have hv : c.toNat.isValidChar := c.valid
  unfold Nat.isValidChar at hv
  have hhigh : isHighSurrogate (0xd800 + (c.toNat - 0x10000) / 0x400) = true := by
    simp [isHighSurrogate]
    omega
  have hlow : isLowSurrogate (0xdc00 + (c.toNat - 0x10000) % 0x400) = true := by
    simp [isLowSurrogate]
    omega
  have hsum : 0x10000 + (0xd800 + (c.toNat - 0x10000) / 0x400 - 0xd800) * 0x400 +
      (0xdc00 + (c.toNat - 0x10000) % 0x400 - 0xdc00) = c.toNat := by
    omega
  rw [ofUnits, hhigh, hlow, Bool.and_self, if_pos rfl, hsum, Char.ofNat_toNat]

/-- The units of a written character stand for it, whatever follows. -/
theorem textUnits_quotedChar (start : List Char) (c : Char)
    (h : textUnits start cs = .ok (units, rest)) :
    ∃ more, textUnits start (quotedChar c ++ cs) = .ok (more, rest) ∧
      ofUnits more = c :: ofUnits units := by
  unfold quotedChar
  split
  case h_8 h₁ h₂ _ _ _ _ _ =>
    split
    · next hplain =>
      rw [Bool.and_eq_true, decide_eq_true_eq, decide_eq_true_eq] at hplain
      exact ⟨_, textUnits_plain start hplain.1 h₁ h₂ h, ofUnits_toNat_cons c units⟩
    · unfold unitEscape
      by_cases hplane : c.toNat < 0x10000
      · rw [if_pos hplane]
        exact ⟨_, textUnits_unit start hplane h, ofUnits_toNat_cons c units⟩
      · have hv : c.toNat.isValidChar := c.valid
        unfold Nat.isValidChar at hv
        rw [if_neg hplane, List.append_assoc _ (toHexs 4 _) cs, List.append_assoc _ _ (_ ++ cs),
          ← List.append_assoc ['\\', 'u'] _ cs]
        have hlow := textUnits_unit start
          (show 0xdc00 + (c.toNat - 0x10000) % 0x400 < 0x10000 by omega) h
        exact ⟨_, textUnits_unit start
          (show 0xd800 + (c.toNat - 0x10000) / 0x400 < 0x10000 by omega) hlow,
          ofUnits_surrogates c (by omega) units⟩
  all_goals exact ⟨_, textUnits_simple start rfl h, ofUnits_toNat_cons _ units⟩

/-- A text is read up to its closing quote. -/
theorem textUnits_quote (start cs rest : List Char) :
    ∃ units, textUnits start (cs.flatMap quotedChar ++ '"' :: rest) = .ok (units, rest) ∧
      ofUnits units = cs := by
  induction cs with
  | nil => exact ⟨[], rfl, rfl⟩
  | cons c cs ih =>
    obtain ⟨units, hread, hunits⟩ := ih
    obtain ⟨more, hmore, hchars⟩ := textUnits_quotedChar start c hread
    rw [List.flatMap_cons, List.append_assoc]
    exact ⟨more, hmore, by rw [hchars, hunits]⟩

theorem quoted_quote (fault : Fault) (s : String) (rest : List Char) :
    quoted fault (quote s ++ rest) = .ok (s, rest) := by
  have heq : quote s ++ rest = '"' :: (s.toList.flatMap quotedChar ++ '"' :: rest) := by
    simp [quote]
  obtain ⟨units, hread, hunits⟩ :=
    textUnits_quote ('"' :: (s.toList.flatMap quotedChar ++ '"' :: rest)) s.toList rest
  rw [heq, quoted, hread]
  show Except.ok (String.ofList (ofUnits units), rest) = _
  rw [hunits, String.ofList_toList]

/-! ## Numbers -/

/-- What may stand after a value: nothing, a comma or a closing bracket. -/
def Follows (rest : List Char) : Prop := ∀ c ∈ rest.head?, c = ',' ∨ c = ']' ∨ c = '}'

theorem Follows.nil : Follows [] := by
  rintro c ⟨⟩

theorem Follows.head (h : c = ',' ∨ c = ']' ∨ c = '}') (rest : List Char) :
    Follows (c :: rest) := by
  rintro d ⟨⟩
  exact h

theorem Follows.not_isDigit (h : Follows rest) : ∀ c ∈ rest.head?, isAsciiDigit c = false := by
  intro c hc
  rcases h c hc with rfl | rfl | rfl <;> rfl

theorem head?_decimalChars (n : Nat) (hn : n ≠ 0) :
    (Number.decimalChars n).head? ≠ some '0' := by
  induction n using Nat.strongRecOn with
  | _ n ih =>
    unfold Number.decimalChars at ih ⊢
    by_cases hlt : n < 10
    · have hdigit : ∀ d < 10, d ≠ 0 → Nat.digitChar d ≠ '0' := by decide
      rw [Nat.toDigits_of_lt_base hlt]
      exact fun h => hdigit n hlt hn (Option.some.inj h)
    · rw [Nat.toDigits_of_base_le (by omega) (by omega), List.head?_append]
      have hhead := ih (n / 10) (by omega) (by omega)
      cases hd : (Nat.toDigits 10 (n / 10)).head? with
      | none => exact absurd (List.head?_eq_none_iff.1 hd) Nat.toDigits_ne_nil
      | some c => simpa [hd] using hhead

theorem integerDigits_append (n : Nat) (h : Follows rest) :
    integerDigits (Number.decimalChars n ++ rest) = Number.decimalChars n := by
  have hdigits : ∀ c ∈ Number.decimalChars n, isAsciiDigit c = true :=
    fun c hc => isDigit_of_mem_decimalChars hc
  have htake : (Number.decimalChars n ++ rest).takeWhile isAsciiDigit = Number.decimalChars n := by
    rw [List.takeWhile_append_of_pos hdigits]
    cases rest with
    | nil => simp
    | cons c rest => rw [List.takeWhile_cons_of_neg (by simp [h.not_isDigit c rfl]),
      List.append_nil]
  by_cases hn : n = 0
  · subst hn
    rfl
  · unfold integerDigits
    split
    · next heq =>
      have hne := head?_decimalChars n hn
      cases hd : Number.decimalChars n with
      | nil => exact absurd hd Nat.toDigits_ne_nil
      | cons c cs =>
        rw [hd] at heq hne
        injection heq with hc
        exact absurd (congrArg some hc) hne
    · exact htake

theorem unsigned_decimalChars (negative : Bool) (start : List Char) {n : Nat}
    (hn : n < Number.digitLimit) (h : Follows rest) :
    unsigned negative start (Number.decimalChars n ++ rest) =
      .ok (.number (.int (if negative then -(n : Int) else n)), rest) := by
  have hne : (Number.decimalChars n).isEmpty = false := by
    rw [List.isEmpty_eq_false_iff]
    exact Nat.toDigits_ne_nil
  have hlen : ¬ Number.maxDigits < (Number.decimalChars n).length :=
    Nat.not_lt.2 (Token.length_decimalChars_le hn)
  have hfraction : fractionDigits rest = [] := by
    unfold fractionDigits
    split
    · next r =>
      have := h '.' rfl
      simp at this
    · rfl
  have hexponent : Number.exponent? isAsciiDigit rest = none := by
    cases rest with
    | nil => rfl
    | cons c rest => rcases h c rfl with rfl | rfl | rfl <;> rfl
  simp only [unsigned, integerDigits_append n h, hne, List.drop_left, hfraction, hexponent,
    List.isEmpty_nil, hlen, ofDecimals_decimalChars, if_true, Bool.false_eq_true, if_false,
    Bool.not_true]

theorem scalar_of_isDigit (h : c.isDigit = true) (cs : List Char) :
    scalar (c :: cs) = unsigned false (c :: cs) (c :: cs) := by
  unfold scalar
  split <;> simp_all

theorem exists_writeInt (i : Int) :
    ∃ c cs, (Number.writeInt i).toList = c :: cs ∧ (c = '-' ∨ c.isDigit = true) := by
  rw [Number.writeInt, String.toList_ofList]
  by_cases hneg : i < 0
  · rw [if_pos hneg]
    exact ⟨'-', _, rfl, .inl rfl⟩
  · rw [if_neg hneg, List.nil_append]
    cases hd : Number.decimalChars i.natAbs with
    | nil => exact absurd hd Nat.toDigits_ne_nil
    | cons c cs =>
      have hc : c ∈ Number.decimalChars i.natAbs := hd ▸ List.mem_cons_self
      exact ⟨c, cs, rfl, .inr (isDigit_of_mem_decimalChars hc)⟩

/-- An integer is read from its digits. -/
theorem scalar_writeInt {i : Int} (hi : (Number.int i).isLong = false) (h : Follows rest) :
    scalar ((Number.writeInt i).toList ++ rest) = .ok (.number (.int i), rest) := by
  have hlt : i.natAbs < Number.digitLimit := by simpa [Number.isLong] using hi
  rw [Number.writeInt, String.toList_ofList, List.append_assoc]
  cases hd : Number.decimalChars i.natAbs with
  | nil => exact absurd hd Nat.toDigits_ne_nil
  | cons c cs =>
    have hc : c.isDigit = true :=
      isDigit_of_mem_decimalChars (n := i.natAbs) (by rw [hd]; exact List.mem_cons_self)
    by_cases hneg : i < 0
    · have hread := unsigned_decimalChars true ('-' :: (c :: cs ++ rest)) hlt h
      have hI : c ≠ 'I' := by
        rintro rfl
        simp at hc
      rw [hd] at hread
      rw [if_pos hneg]
      show scalar ('-' :: c :: (cs ++ rest)) = _
      rw [scalar.eq_7 _ (by simp [hI])]
      refine hread.trans ?_
      rw [if_pos rfl, show (-(i.natAbs : Int)) = i by omega]
    · have hread := unsigned_decimalChars false (c :: (cs ++ rest)) hlt h
      rw [hd] at hread
      rw [if_neg hneg, List.nil_append, List.cons_append, scalar_of_isDigit hc]
      refine hread.trans ?_
      rw [if_neg (by decide), show (i.natAbs : Int) = i by omega]

/-! ## Values -/

/-- A written value starts with its own first character: no blank, no closing bracket and no byte
order mark. -/
theorem exists_writeChars (h : isExact v = true) :
    ∃ c cs, writeChars v = c :: cs ∧ isSpace c = false ∧ c ≠ ']' ∧ c ≠ '\ufeff' := by
  cases v with
  | null => exact ⟨'n', _, rfl, rfl, by decide⟩
  | bool b => cases b with
    | true => exact ⟨'t', _, rfl, rfl, by decide⟩
    | false => exact ⟨'f', _, rfl, rfl, by decide⟩
  | number n => cases n with
    | double d => cases h
    | int i =>
      obtain ⟨c, cs, heq, hc⟩ := exists_writeInt i
      refine ⟨c, cs, heq, ?_, ?_, ?_⟩
      · rcases hc with rfl | hc
        · rfl
        · by_cases hblank : c = ' ' ∨ c = '\t' ∨ c = '\n' ∨ c = '\r'
          · rcases hblank with rfl | rfl | rfl | rfl <;> cases hc
          · simpa [isSpace, and_assoc] using hblank
      all_goals
        rintro rfl
        simp at hc
  | text s => exact ⟨'"', _, rfl, rfl, by decide⟩
  | array items => exact ⟨'[', _, rfl, rfl, by decide⟩
  | object members => exact ⟨'{', _, rfl, rfl, by decide⟩

theorem writeItems_cons_cons (v w : Json) (vs : List Json) :
    writeItems (v :: w :: vs) = writeChars v ++ ',' :: ' ' :: writeItems (w :: vs) := by
  rw [writeItems.eq_3 _ _ (by simp)]
  simp

theorem writeMembers_cons_cons (k : String) (v : Json) (m : String × Json) (ms : Members) :
    writeMembers ((k, v) :: m :: ms) =
      quote k ++ ':' :: ' ' :: (writeChars v ++ ',' :: ' ' :: writeMembers (m :: ms)) := by
  rw [writeMembers.eq_3 _ _ _ (by simp)]
  simp

/-- The items of an array start as its first item does. -/
theorem exists_writeItems (vs : List Json) (h : isExact v = true) :
    ∃ c cs, writeItems (v :: vs) = c :: cs ∧ isSpace c = false ∧ c ≠ ']' := by
  obtain ⟨c, cs, heq, hc, hclose, -⟩ := exists_writeChars h
  cases vs with
  | nil => exact ⟨c, cs, heq, hc, hclose⟩
  | cons w ws =>
    rw [writeItems_cons_cons, heq]
    exact ⟨c, _, rfl, hc, hclose⟩

theorem exists_writeMembers (m : String × Json) (ms : Members) :
    ∃ cs, writeMembers (m :: ms) = '"' :: cs := by
  cases ms with
  | nil => exact ⟨_, rfl⟩
  | cons n ns => exact ⟨_, rfl⟩

theorem arrayOf_of_items (hc : isSpace c = false) (hclose : c ≠ ']')
    (h : items item (c :: cs).length.succ (c :: cs) = .ok (vs, rest)) :
    arrayOf item (c :: cs) = .ok (.array vs, rest) := by
  have hskip : skipSpace (c :: cs) = c :: cs := by simp [skipSpace, hc]
  unfold arrayOf
  rw [hskip]
  split
  · next heq => exact absurd (List.cons.inj heq).1 hclose
  · rw [h]
    rfl

theorem objectOf_of_members (hms : (ms.map (·.1)).Nodup)
    (h : members item ('"' :: cs).length.succ ('"' :: cs) = .ok (ms, rest)) :
    objectOf item ('"' :: cs) = .ok (.object ms, rest) := by
  show (members item ('"' :: cs).length.succ ('"' :: cs) >>= fun p =>
    (.ok (.object (ofPairs p.1), p.2) : Except Stop (Json × List Char))) = _
  rw [h]
  show Except.ok (Json.object (ofPairs ms), rest) = _
  rw [ofPairs_of_nodup hms]

theorem items_cons {more : List Char} {fuel : Nat} (h : item cs = .ok (v, ',' :: ' ' :: more))
    (hskip : skipSpace more = more) (hmore : items item fuel more = .ok (vs, rest)) :
    items item (fuel + 1) cs = .ok (v :: vs, rest) := by
  have hblank : skipSpace (' ' :: more) = more := hskip
  rw [items, h]
  show (items item fuel (skipSpace (' ' :: more)) >>= fun p =>
    (.ok (v :: p.1, p.2) : Except Stop (List Json × List Char))) = _
  rw [hblank, hmore]
  rfl

theorem members_one {k : String} (hskip : skipSpace cs = cs) (h : item cs = .ok (v, '}' :: rest))
    (fuel : Nat) :
    members item (fuel + 1) (quote k ++ ':' :: ' ' :: cs) = .ok ([(k, v)], rest) := by
  have hblank : skipSpace (' ' :: cs) = cs := hskip
  rw [members, quoted_quote]
  show (item (skipSpace (' ' :: cs)) >>= _) = _
  rw [hblank, h]
  rfl

theorem members_cons {k : String} {more : List Char} {fuel : Nat} (hskip : skipSpace cs = cs)
    (h : item cs = .ok (v, ',' :: ' ' :: '"' :: more))
    (hmore : members item fuel ('"' :: more) = .ok (ms, rest)) :
    members item (fuel + 1) (quote k ++ ':' :: ' ' :: cs) = .ok ((k, v) :: ms, rest) := by
  have hblank : skipSpace (' ' :: cs) = cs := hskip
  rw [members, quoted_quote]
  show (item (skipSpace (' ' :: cs)) >>= _) = _
  rw [hblank, h]
  show (members item fuel ('"' :: more) >>= fun p =>
    (.ok ((k, v) :: p.1, p.2) : Except Stop (Members × List Char))) = _
  rw [hmore]
  rfl

theorem skipSpace_writeChars (h : isExact v = true) (rest : List Char) :
    skipSpace (writeChars v ++ rest) = writeChars v ++ rest := by
  obtain ⟨c, cs, heq, hc, -⟩ := exists_writeChars h
  rw [heq, List.cons_append, skipSpace, List.dropWhile_cons_of_neg (by simp [hc])]

theorem length_writeItems (vs : List Json) : vs.length ≤ (writeItems vs).length + 1 := by
  induction vs with
  | nil => simp
  | cons v vs ih => cases vs with
    | nil => simp
    | cons w ws =>
      simp only [writeItems, List.length_append, List.length_cons, List.length_nil] at ih ⊢
      omega

theorem length_writeMembers (ms : Members) : ms.length ≤ (writeMembers ms).length + 1 := by
  induction ms with
  | nil => simp
  | cons m ms ih => cases ms with
    | nil => simp
    | cons n ns =>
      simp only [writeMembers, List.length_append, List.length_cons, List.length_nil] at ih ⊢
      omega

theorem value_scalar (d : Nat) (h : ∀ c ∈ cs.head?, c ≠ '[' ∧ c ≠ '{' ∧ c ≠ '"') :
    value d cs = scalar cs := by
  cases d <;> rw [value.eq_def] <;> dsimp only <;> split <;> simp_all

theorem value_text (d : Nat) (s : String) (rest : List Char) :
    value d (quote s ++ rest) = .ok (.text s, rest) := by
  have heq : quote s ++ rest = '"' :: (s.toList.flatMap quotedChar ++ '"' :: rest) := by
    simp [quote]
  have hread := quoted_quote .expectedValue s rest
  rw [heq] at hread ⊢
  cases d <;> simp only [value, hread] <;> rfl

theorem isExact_array (h : isExact (.array vs) = true) :
    everywhereIn isExactNode vs = true := by
  rw [isExact, everywhere, Bool.and_eq_true] at h
  exact h.2

theorem isExact_object (h : isExact (.object ms) = true) :
    everywhereUnder isExactNode ms = true := by
  rw [isExact, everywhere, Bool.and_eq_true] at h
  exact h.2

mutual

/-- An exact value is read from what is written for it, whatever follows. -/
theorem value_writeChars (v : Json) (hv : isExact v = true) (d : Nat) (hd : v.depth ≤ d)
    {rest : List Char} (hrest : Follows rest) :
    value d (writeChars v ++ rest) = .ok (v, rest) := by
  cases v with
  | null => exact value_scalar d (by rintro c ⟨⟩; decide)
  | bool b => cases b <;> exact value_scalar d (by rintro c ⟨⟩; decide)
  | number n => cases n with
    | double x => cases hv
    | int i =>
      have hlong : (Number.int i).isLong = false := by
        simpa [isExact, everywhere, isExactNode] using hv
      refine (value_scalar d ?_).trans (scalar_writeInt hlong hrest)
      obtain ⟨c, cs, heq, hc⟩ := exists_writeInt i
      rw [writeChars, Number.write, heq]
      rintro _ ⟨⟩
      refine ⟨?_, ?_, ?_⟩ <;> rintro rfl <;> simp at hc
  | text s => exact value_text d s rest
  | array items =>
    obtain ⟨d, rfl⟩ : ∃ e, d = e + 1 := ⟨d - 1, by rw [depth] at hd; omega⟩
    rw [depth, Nat.add_le_add_iff_right] at hd
    cases items with
    | nil => rfl
    | cons v vs =>
      have hread := items_writeItems (v :: vs) (isExact_array hv) d hd rest (by simp)
      have hexact : isExact v = true := (Bool.and_eq_true_iff.1 (isExact_array hv)).1
      obtain ⟨c, cs, heq, hc, hclose⟩ := exists_writeItems vs hexact
      have hlen := length_writeItems (v :: vs)
      rw [heq] at hread hlen
      rw [writeChars, heq]
      show arrayOf (value d) (c :: (cs ++ [']'] ++ rest)) = _
      rw [List.append_assoc]
      refine arrayOf_of_items hc hclose (hread _ ?_)
      simp only [List.length_cons, List.length_append] at hlen ⊢
      omega
  | object members =>
    obtain ⟨d, rfl⟩ : ∃ e, d = e + 1 := ⟨d - 1, by rw [depth] at hd; omega⟩
    rw [depth, Nat.add_le_add_iff_right] at hd
    cases members with
    | nil => rfl
    | cons m ms =>
      have hread := members_writeMembers (m :: ms) (isExact_object hv) d hd rest (by simp)
      obtain ⟨cs, heq⟩ := exists_writeMembers m ms
      have hlen := length_writeMembers (m :: ms)
      rw [heq] at hread hlen
      rw [writeChars, heq]
      show objectOf (value d) ('"' :: (cs ++ ['}'] ++ rest)) = _
      rw [List.append_assoc]
      refine objectOf_of_members (nodup_of_isExact hv) (hread _ ?_)
      simp only [List.length_cons, List.length_append] at hlen ⊢
      omega

theorem items_writeItems (vs : List Json) (hvs : everywhereIn isExactNode vs = true) (d : Nat)
    (hd : depthIn vs ≤ d) (rest : List Char) (hne : vs ≠ []) (fuel : Nat) (hf : vs.length ≤ fuel) :
    items (value d) fuel (writeItems vs ++ ']' :: rest) = .ok (vs, rest) := by
  cases vs with
  | nil => exact absurd rfl hne
  | cons v vs =>
    obtain ⟨fuel, rfl⟩ : ∃ n, fuel = n + 1 := ⟨fuel - 1, by rw [List.length_cons] at hf; omega⟩
    obtain ⟨hv, hvs⟩ := Bool.and_eq_true_iff.1 hvs
    rw [depthIn, Nat.max_le] at hd
    cases vs with
    | nil =>
      have hfirst := value_writeChars v hv d hd.1 (Follows.head (c := ']') (by decide) rest)
      rw [writeItems, items, hfirst]
      rfl
    | cons w ws =>
      have hw : isExact w = true := (Bool.and_eq_true_iff.1 hvs).1
      obtain ⟨c, cs, heq, hc, -⟩ := exists_writeItems ws hw
      have hlater := items_writeItems (w :: ws) hvs d hd.2 rest (by simp) fuel
        (Nat.le_of_succ_le_succ hf)
      have hfirst := value_writeChars v hv d hd.1
        (Follows.head (c := ',') (by decide) (' ' :: (writeItems (w :: ws) ++ ']' :: rest)))
      rw [writeItems_cons_cons, List.append_assoc]
      refine items_cons hfirst ?_ hlater
      rw [heq, List.cons_append, skipSpace, List.dropWhile_cons_of_neg (by simp [hc])]

theorem members_writeMembers (ms : Members) (hms : everywhereUnder isExactNode ms = true) (d : Nat)
    (hd : depthUnder ms ≤ d) (rest : List Char) (hne : ms ≠ []) (fuel : Nat)
    (hf : ms.length ≤ fuel) :
    members (value d) fuel (writeMembers ms ++ '}' :: rest) = .ok (ms, rest) := by
  cases ms with
  | nil => exact absurd rfl hne
  | cons m ms =>
    obtain ⟨k, v⟩ := m
    obtain ⟨fuel, rfl⟩ : ∃ n, fuel = n + 1 := ⟨fuel - 1, by rw [List.length_cons] at hf; omega⟩
    obtain ⟨hv, hms⟩ := Bool.and_eq_true_iff.1 hms
    rw [depthUnder, Nat.max_le] at hd
    cases ms with
    | nil =>
      have hfirst := value_writeChars v hv d hd.1 (Follows.head (c := '}') (by decide) rest)
      rw [writeMembers, List.append_assoc, List.append_assoc]
      exact members_one (skipSpace_writeChars hv _) hfirst fuel
    | cons n ns =>
      obtain ⟨cs, heq⟩ := exists_writeMembers n ns
      have hlater := members_writeMembers (n :: ns) hms d hd.2 rest (by simp) fuel
        (Nat.le_of_succ_le_succ hf)
      rw [heq] at hlater
      have hfirst := value_writeChars v hv d hd.1
        (Follows.head (c := ',') (by decide) (' ' :: '"' :: (cs ++ '}' :: rest)))
      have hshape : writeMembers ((k, v) :: n :: ns) ++ '}' :: rest =
          quote k ++ ':' :: ' ' :: (writeChars v ++ ',' :: ' ' :: '"' :: (cs ++ '}' :: rest)) := by
        rw [writeMembers_cons_cons, heq]
        simp
      rw [hshape]
      exact members_cons (skipSpace_writeChars hv _) hfirst hlater

end

/-- A document text gives back the value that it was written for. -/
theorem readWithin_write (hv : isExact v = true) {d : Nat} (hd : v.depth ≤ d) :
    readWithin d v.write.toList = .ok v := by
  have hread := value_writeChars v hv d hd Follows.nil
  have hskip := skipSpace_writeChars hv []
  obtain ⟨c, cs, heq, -, -, hmark⟩ := exists_writeChars hv
  rw [List.append_nil] at hread hskip
  have hbom : (writeChars v).head? ≠ some '\ufeff' := by
    rw [heq]
    exact fun h => hmark (Option.some.inj h)
  rw [write, String.toList_ofList, readWithin, if_neg hbom, hskip, hread]
  rfl

/-! ## The characters of a document -/

/-- A printable character of ASCII. -/
def isShown (c : Char) : Bool := 0x20 ≤ c.toNat && c.toNat < 0x7f

theorem eq_space_of_isBlank (h : isShown c = true) (hblank : isBlank c = true) : c = ' ' := by
  simp only [isShown, Bool.and_eq_true, decide_eq_true_eq] at h
  simp only [isBlank, Bool.or_eq_true, Bool.and_eq_true, decide_eq_true_eq,
    beq_iff_eq] at hblank
  have hspace : c.toNat = 0x20 := by omega
  rw [← Char.ofNat_toNat c, hspace]

theorem isShown_of_between {a b : Char} (ha : 0x20 ≤ a.toNat) (hb : b.toNat < 0x7f)
    (h : (decide (a ≤ c) && decide (c ≤ b)) = true) : isShown c = true := by
  simp only [Bool.and_eq_true, decide_eq_true_eq, Char.le_def, UInt32.le_iff_toNat_le] at h
  have ha' : 0x20 ≤ a.val.toNat := ha
  have hb' : b.val.toNat < 0x7f := hb
  have hc : 0x20 ≤ c.val.toNat ∧ c.val.toNat < 0x7f := by omega
  simpa [isShown] using hc

theorem isShown_of_isHex (h : isHex c = true) : isShown c = true := by
  unfold isHex hexValue? at h
  split at h
  · next hc => exact isShown_of_between (by decide) (by decide) hc
  split at h
  · next hc => exact isShown_of_between (by decide) (by decide) hc
  split at h
  · next hc => exact isShown_of_between (by decide) (by decide) hc
  · cases h

theorem isShown_of_isDigit (h : c.isDigit = true) : isShown c = true :=
  isShown_of_between (a := '0') (b := '9') (by decide) (by decide) h

theorem all_isShown_quotedChar (c : Char) : (quotedChar c).all isShown = true := by
  have hhexs : ∀ n, (toHexs 4 n).all isShown = true := fun n =>
    List.all_eq_true.2 fun d hd =>
      isShown_of_isHex (List.all_eq_true.1 (all_isHex_toHexs 4 n) d hd)
  unfold quotedChar
  split
  case h_8 =>
    split
    · next hplain => simpa [isShown] using hplain
    · have hmarks : (['\\', 'u'] : List Char).all isShown = true := by decide
      unfold unitEscape
      dsimp only
      split
      · rw [List.all_append, hmarks, hhexs]
        rfl
      · rw [List.all_append, List.all_append, List.all_append, hmarks, hhexs, hhexs]
        rfl
  all_goals decide

theorem all_isShown_quote (s : String) : (quote s).all isShown = true := by
  simp [quote, all_isShown_quotedChar, isShown]

mutual

/-- Documents are written in printable characters. -/
theorem all_isShown_writeChars (v : Json) (hv : isExact v = true) :
    (writeChars v).all isShown = true := by
  cases v with
  | null => decide
  | bool b => cases b <;> decide
  | number n => cases n with
    | double x => cases hv
    | int i =>
      rw [writeChars, Number.write, Number.writeInt, String.toList_ofList, List.all_append,
        Bool.and_eq_true]
      refine ⟨by split <;> decide, List.all_eq_true.2 fun c hc => ?_⟩
      exact isShown_of_isDigit (isDigit_of_mem_decimalChars hc)
  | text s => exact all_isShown_quote s
  | array items =>
    rw [writeChars, List.all_append, List.all_append,
      all_isShown_writeItems items (isExact_array hv)]
    decide
  | object members =>
    rw [writeChars, List.all_append, List.all_append,
      all_isShown_writeMembers members (isExact_object hv)]
    decide

theorem all_isShown_writeItems (vs : List Json) (hvs : everywhereIn isExactNode vs = true) :
    (writeItems vs).all isShown = true := by
  match vs with
  | [] => rfl
  | [v] => exact all_isShown_writeChars v (Bool.and_eq_true_iff.1 hvs).1
  | v :: w :: ws =>
    obtain ⟨hv, hws⟩ := Bool.and_eq_true_iff.1 hvs
    rw [writeItems_cons_cons, List.all_append, all_isShown_writeChars v hv, List.all_cons,
      List.all_cons, all_isShown_writeItems (w :: ws) hws]
    decide

theorem all_isShown_writeMembers (ms : Members) (hms : everywhereUnder isExactNode ms = true) :
    (writeMembers ms).all isShown = true := by
  match ms with
  | [] => rfl
  | [(k, v)] =>
    rw [writeMembers, List.all_append, List.all_append, all_isShown_quote,
      all_isShown_writeChars v (Bool.and_eq_true_iff.1 hms).1]
    decide
  | (k, v) :: m :: ms =>
    obtain ⟨hv, hms⟩ := Bool.and_eq_true_iff.1 hms
    rw [writeMembers_cons_cons, List.all_append, all_isShown_quote, List.all_cons, List.all_cons,
      List.all_append, all_isShown_writeChars v hv, List.all_cons, List.all_cons,
      all_isShown_writeMembers (m :: ms) hms]
    decide

end

theorem getLast?_writeChars (h : isExact v = true) :
    ∃ c, (writeChars v).getLast? = some c ∧ c ≠ ' ' := by
  cases v with
  | null => exact ⟨'l', rfl, by decide⟩
  | bool b => cases b <;> exact ⟨'e', rfl, by decide⟩
  | number n => cases n with
    | double x => cases h
    | int i =>
      have hlast := List.getLast?_eq_some_getLast (Nat.toDigits_ne_nil (n := i.natAbs) (b := 10))
      have hdigit := isDigit_of_mem_decimalChars (List.mem_of_getLast? hlast)
      refine ⟨(Nat.toDigits 10 i.natAbs).getLast Nat.toDigits_ne_nil, ?_, ?_⟩
      · rw [writeChars, Number.write, Number.writeInt, String.toList_ofList, List.getLast?_append,
          Number.decimalChars, hlast]
        rfl
      · intro hspace
        rw [hspace] at hdigit
        exact absurd hdigit (by decide)
  | text s => exact ⟨'"', List.getLast?_concat, by decide⟩
  | array items => exact ⟨']', List.getLast?_concat, by decide⟩
  | object members => exact ⟨'}', List.getLast?_concat, by decide⟩

/-- A document text has no line break in it and no blank at its ends. -/
theorem isTrimmed_write (h : isExact v = true) :
    '\n' ∉ v.write.toList ∧ IsTrimmedStart v.write.toList ∧
      IsTrimmedEnd v.write.toList := by
  have hshown : ∀ c ∈ writeChars v, isShown c = true :=
    List.all_eq_true.1 (all_isShown_writeChars v h)
  rw [write, String.toList_ofList]
  refine ⟨fun hmem => absurd (hshown _ hmem) (by decide), ?_, ?_⟩
  · obtain ⟨d, cs, heq, hd, -⟩ := exists_writeChars h
    intro c hc
    rw [heq] at hc hshown
    obtain rfl : d = c := Option.some.inj hc
    cases hblank : isBlank d with
    | false => rfl
    | true =>
      rw [eq_space_of_isBlank (hshown d List.mem_cons_self) hblank] at hd
      exact absurd hd (by decide)
  · obtain ⟨d, hlast, hd⟩ := getLast?_writeChars h
    intro c hc
    obtain rfl : d = c := Option.some.inj (hlast.symm.trans hc)
    cases hblank : isBlank d with
    | false => rfl
    | true => exact absurd (eq_space_of_isBlank (hshown d (List.mem_of_getLast? hlast)) hblank) hd

end EventFlow.Json
