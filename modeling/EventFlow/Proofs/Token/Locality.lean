import EventFlow.Proofs.Token.Body

/-! A piece of source text does not depend on what follows it.

    pieces here (a ++ b) = pieces here a ++ pieces (here.advance a) b

This holds at every seam that is tight: either the last character of `a` cannot be continued, or
the first character of `b` continues nothing. -/

namespace EventFlow.Token

open Text

variable {r b cs : List Char} {c : Char} {n : Nat} {p : Piece}

/-! ## Seams -/

/-- A lexeme may go on after such a character. -/
def sticky (c : Char) : Bool :=
  isNamePart c || isDecimal c || ['.', '=', '?', '/', '+', '-'].contains c

/-- Such a character goes on with no lexeme. -/
def stopper (c : Char) : Bool :=
  !(isNamePart c || isDigit c || ['.', '>', '?', '/', '*', '+', '-'].contains c)

/-- What ends with `r` is not changed by what begins with `b`. -/
def Tight (r b : List Char) : Prop :=
  (∀ y ∈ b.head?, stopper y = true) ∨ ∃ x ∈ r.getLast?, sticky x = false

/-- A seam stays tight with less before it. -/
theorem Tight.drop {w : List Char} (h : Tight (w ++ r) b) (hw : ∀ c ∈ w, sticky c = true) :
    Tight r b := by
  rcases h with h | ⟨x, hx, hs⟩
  · exact Or.inl h
  · right
    refine ⟨x, ?_, hs⟩
    cases hr : r.getLast? with
    | some y => simpa [List.getLast?_append, hr] using hx
    | none =>
      have : x ∈ w := by
        have hx' : w.getLast? = some x := by simpa [List.getLast?_append, hr] using hx
        exact List.mem_of_getLast? hx'
      rw [hw x this] at hs
      cases hs

theorem Tight.tail (h : Tight (c :: r) b) (hc : sticky c = true) : Tight r b :=
  Tight.drop (w := [c]) h (by simpa using hc)

/-- The next character does not come from behind the seam. -/
theorem Tight.head? (h : Tight r b) (d : Char) (hd : stopper d = false) :
    (r ++ b).head? = some d ↔ r.head? = some d := by
  cases r with
  | cons c r => simp
  | nil =>
    rcases h with h | ⟨x, hx, -⟩
    · simp only [List.nil_append, List.head?_nil, reduceCtorEq, iff_false]
      intro hb
      rw [h d hb] at hd
      cases hd
    · cases hx

/-- A run of such characters ends before the seam. -/
theorem Tight.takeWhile (h : Tight r b) (p : Char → Bool)
    (hsticky : ∀ c, p c = true → sticky c = true) (hstop : ∀ c, stopper c = true → p c = false) :
    (r ++ b).takeWhile p = r.takeWhile p := by
  rw [List.takeWhile_append]
  split
  · next hall =>
    have hself : r.takeWhile p = r := (List.takeWhile_prefix p).eq_of_length hall
    rw [hself]
    rcases h with h | ⟨x, hx, hs⟩
    · cases b with
      | nil => simp
      | cons y t => simp [hstop y (h y rfl)]
    · have hp : p x = true := by
        have hx' : x ∈ r.takeWhile p := hself.symm ▸ List.mem_of_getLast? hx
        exact List.all_eq_true.1 List.all_takeWhile x hx'
      rw [hsticky x hp] at hs
      cases hs
  · rfl

theorem stopper_facts (h : stopper c = true) :
    isNamePart c = false ∧ isDigit c = false ∧ c ≠ '.' ∧ c ≠ '>' ∧ c ≠ '?' ∧ c ≠ '/' ∧
      c ≠ '*' ∧ c ≠ '+' ∧ c ≠ '-' := by
  simpa [stopper, and_assoc] using h

theorem isNamePart_of_isNameStart (h : isNameStart c = true) : isNamePart c = true := by
  simp only [isNameStart, isNamePart, Char.isAlphanum, Bool.or_eq_true] at h ⊢
  rcases h with (h | h) | h
  · exact Or.inl (Or.inl (Or.inl h))
  · exact Or.inl (Or.inr h)
  · exact Or.inr h

theorem isAlphanum_iff : c.isAlphanum = true ↔
    (65 ≤ c.toNat ∧ c.toNat ≤ 90) ∨ (97 ≤ c.toNat ∧ c.toNat ≤ 122) ∨
      (48 ≤ c.toNat ∧ c.toNat ≤ 57) := by
  show ((decide (c.val ≥ 65 ∧ c.val ≤ 90) || (decide (c.val ≥ 97) && decide (c.val ≤ 122))) ||
    (decide (c.val ≥ 48) && decide (c.val ≤ 57))) = true ↔ _
  simp only [Bool.or_eq_true, Bool.and_eq_true, decide_eq_true_eq, ge_iff_le,
    UInt32.le_iff_toNat_le, or_assoc]
  rfl

theorem isNamePart_of_isHex (c : Char) (h : isHex c = true) : isNamePart c = true := by
  have hrange : (48 ≤ c.toNat ∧ c.toNat ≤ 57) ∨ (97 ≤ c.toNat ∧ c.toNat ≤ 102) ∨
      (65 ≤ c.toNat ∧ c.toNat ≤ 70) := by
    simp only [isHex, hexValue?, Bool.and_eq_true, decide_eq_true_eq, Char.le_def,
      UInt32.le_iff_toNat_le] at h
    split at h
    · next hd => exact Or.inl hd
    · split at h
      · next hd => exact Or.inr (Or.inl hd)
      · split at h
        · next hd => exact Or.inr (Or.inr hd)
        · cases h
  have hcases : c.isAlphanum = true := by
    rw [isAlphanum_iff]
    omega
  simp [isNamePart, hcases]

theorem Tight.decimals (h : Tight r b) :
    (r ++ b).takeWhile isDecimal = r.takeWhile isDecimal :=
  h.takeWhile _ (fun c hc => by simp [sticky, hc]) fun c hc => by
    have := (stopper_facts hc).2.1
    simp only [isDigit, Bool.or_eq_false_iff] at this
    exact this.1

theorem Tight.names (h : Tight r b) : (r ++ b).takeWhile isNamePart = r.takeWhile isNamePart :=
  h.takeWhile _ (fun c hc => by simp [sticky, hc]) fun c hc => (stopper_facts hc).1

theorem Tight.hexs (h : Tight r b) : (r ++ b).takeWhile isHex = r.takeWhile isHex :=
  h.takeWhile _ (fun c hc => by simp [sticky, isNamePart_of_isHex c hc]) fun c hc => by
    by_cases hx : isHex c = true
    · have := (stopper_facts hc).1
      rw [isNamePart_of_isHex c hx] at this
      cases this
    · simpa using hx

/-! ## Numbers -/

/-- How many characters the sign of an exponent takes. -/
def signLength : List Char → Nat
  | '-' :: _ => 1
  | '+' :: _ => 1
  | _ => 0

theorem exponent?_cons (digit : Char → Bool) (mark : Char) (rest : List Char) :
    Number.exponent? digit (mark :: rest) =
      if mark = 'e' || mark = 'E' then
        let digits := (rest.drop (signLength rest)).takeWhile digit
        let power : Int := ofDecimals digits
        if digits.isEmpty then none
        else some (if rest.head? = some '-' then -power else power,
          1 + signLength rest + digits.length)
      else none := rfl

/-- A sign does not come from behind the seam. -/
theorem signLength_append (r b : List Char) (h : Tight r b) :
    signLength (r ++ b) = signLength r ∧
      (r ++ b).drop (signLength r) = r.drop (signLength r) ++ b ∧
      Tight (r.drop (signLength r)) b := by
  cases r with
  | nil =>
    have hminus := (h.head? '-' (by decide)).1
    have hplus := (h.head? '+' (by decide)).1
    refine ⟨?_, rfl, h⟩
    show signLength b = 0
    fun_cases signLength b with
    | case1 t => exact absurd (hminus rfl) (by simp)
    | case2 t => exact absurd (hplus rfl) (by simp)
    | case3 => rfl
  | cons d ds =>
    by_cases hm : d = '-'
    · subst hm
      exact ⟨rfl, rfl, h.tail (by decide)⟩
    by_cases hp : d = '+'
    · subst hp
      exact ⟨rfl, rfl, h.tail (by decide)⟩
    have hzero : ∀ t, signLength (d :: t) = 0 := by
      intro t
      unfold signLength
      split <;> simp_all
    rw [List.cons_append, hzero, hzero]
    exact ⟨rfl, rfl, h⟩

/-- An exponent ends before the seam. -/
theorem exponent?_append (r b : List Char) (h : Tight r b) :
    Number.exponent? isDecimal (r ++ b) = Number.exponent? isDecimal r := by
  cases r with
  | nil =>
    have hsmall := (h.head? 'e' (by decide)).1
    have hlarge := (h.head? 'E' (by decide)).1
    cases b with
    | nil => rfl
    | cons y t =>
      have hy : (decide (y = 'e') || decide (y = 'E')) = false := by
        simp only [Bool.or_eq_false_iff, decide_eq_false_iff_not]
        exact ⟨fun e => absurd (hsmall (by simp [e])) (by simp),
          fun e => absurd (hlarge (by simp [e])) (by simp)⟩
      rw [List.nil_append, exponent?_cons, hy]
      rfl
  | cons e r =>
    rw [List.cons_append, exponent?_cons, exponent?_cons]
    by_cases he : (decide (e = 'e') || decide (e = 'E')) = true
    · have hsticky : sticky e = true := by
        simp only [Bool.or_eq_true, decide_eq_true_eq] at he
        rcases he with rfl | rfl <;> decide
      have hr := h.tail hsticky
      obtain ⟨hsign, hdrop, htight⟩ := signLength_append r b hr
      rw [if_pos he, if_pos he, hsign, hdrop]
      simp only [htight.decimals, hr.head? '-' (by decide)]
    · rw [if_neg he, if_neg he]

theorem Tight.afterDecimals (h : Tight r b) :
    Tight (r.drop (r.takeWhile isDecimal).length) b := by
  refine Tight.drop (w := r.takeWhile isDecimal) ?_ ?_
  · have hsplit : r.takeWhile isDecimal ++ r.drop (r.takeWhile isDecimal).length = r := by
      obtain ⟨t, ht⟩ := List.takeWhile_prefix isDecimal (l := r)
      have := congrArg (List.drop (r.takeWhile isDecimal).length) ht
      rw [List.drop_left] at this
      rw [← this, ht]
    rwa [hsplit]
  · intro c hc
    have := List.all_eq_true.1 (List.all_takeWhile (p := isDecimal) (l := r)) c hc
    simp [sticky, this]

theorem drop_takeWhile_append (r b : List Char) (p : Char → Bool) :
    (r ++ b).drop (r.takeWhile p).length = r.drop (r.takeWhile p).length ++ b :=
  List.drop_append_of_le_length (List.takeWhile_prefix _).length_le

/-- A decimal number ends before the seam. -/
theorem decimalNumber_append (r b : List Char) (h : Tight r b) :
    decimalNumber (r ++ b) = decimalNumber r := by
  unfold decimalNumber
  dsimp only
  rw [h.decimals, drop_takeWhile_append]
  generalize hq : r.drop (r.takeWhile isDecimal).length = q
  have hqb : Tight q b := hq ▸ h.afterDecimals
  by_cases hpoint : q.head? = some '.'
  · obtain ⟨q', rfl⟩ : ∃ q', q = '.' :: q' := by
      cases q with
      | nil => cases hpoint
      | cons d ds => exact ⟨ds, by simpa using hpoint⟩
    have hq' : Tight q' b := hqb.tail (by decide)
    have hexp := exponent?_append _ _ hq'.afterDecimals
    simp only [List.cons_append, List.head?_cons, List.drop_succ_cons, List.drop_zero, if_true,
      hq'.decimals, Nat.add_comm 1, drop_takeWhile_append, hexp]
  · have hpoint' : (q ++ b).head? ≠ some '.' := fun e => hpoint ((hqb.head? '.' (by decide)).1 e)
    have hexp := exponent?_append _ _ hqb
    simp only [hpoint, hpoint', if_false, List.drop_zero, hexp]

theorem sticky_of_isHexMark (h : isHexMark c = true) : sticky c = true := by
  simp only [isHexMark, Bool.or_eq_true, decide_eq_true_eq] at h
  rcases h with rfl | rfl <;> decide

theorem not_stopper_of_isHexMark (h : isHexMark c = true) : stopper c = false := by
  simp only [isHexMark, Bool.or_eq_true, decide_eq_true_eq] at h
  rcases h with rfl | rfl <;> decide

theorem hexNumber?_zero (mark : Char) (rest : List Char) :
    hexNumber? ('0' :: mark :: rest) =
      if isHexMark mark && !(rest.takeWhile isHex).isEmpty then
        some (.int (ofHexs (rest.takeWhile isHex)), (rest.takeWhile isHex).length + 2)
      else none := rfl

theorem hexNumber?_of_head (h : cs.head? ≠ some '0') : hexNumber? cs = none := by
  unfold hexNumber?
  split
  · exact absurd rfl h
  · rfl

theorem Tight.hexMark {mark : Char} {t : List Char} (h : Tight [] (mark :: t)) :
    isHexMark mark = false := by
  rw [Bool.eq_false_iff]
  intro hm
  exact absurd ((h.head? mark (not_stopper_of_isHexMark hm)).1 rfl) (by simp)

/-- A hexadecimal number ends before the seam. -/
theorem hexNumber?_append (r b : List Char) (h : Tight r b) :
    hexNumber? (r ++ b) = hexNumber? r := by
  by_cases hzero : r.head? = some '0'
  · obtain ⟨r, rfl⟩ : ∃ q, r = '0' :: q := by
      cases r with
      | nil => cases hzero
      | cons d ds => exact ⟨ds, by simpa using hzero⟩
    have hr : Tight r b := h.tail (by decide)
    match r, b, hr with
    | [], [], _ => rfl
    | [], mark :: t, hr =>
      simp only [List.cons_append, List.nil_append, hexNumber?_zero, hr.hexMark, Bool.false_and,
        Bool.false_eq_true, if_false]
      rfl
    | mark :: r, b, hr =>
      rw [List.cons_append, List.cons_append, hexNumber?_zero, hexNumber?_zero]
      by_cases hmark : isHexMark mark = true
      · rw [(hr.tail (sticky_of_isHexMark hmark)).hexs]
      · rw [if_neg (by simp [hmark]), if_neg (by simp [hmark])]
  · rw [hexNumber?_of_head hzero,
      hexNumber?_of_head fun e => hzero ((h.head? '0' (by decide)).1 e)]

theorem readNumber_append (r b : List Char) (h : Tight r b) :
    readNumber (r ++ b) = readNumber r := by
  unfold readNumber
  rw [hexNumber?_append r b h, decimalNumber_append r b h]

theorem exponent?_le {digit : Char → Bool} {power : Int}
    (h : Number.exponent? digit cs = some (power, n)) : n ≤ cs.length := by
  cases cs with
  | nil => cases h
  | cons mark rest =>
    rw [exponent?_cons] at h
    split at h
    · dsimp only at h
      split at h
      · cases h
      · next hne =>
        cases h
        have hdigits := (List.takeWhile_prefix digit (l := rest.drop (signLength rest))).length_le
        have hpos : 0 < ((rest.drop (signLength rest)).takeWhile digit).length := by
          rw [List.length_pos_iff]
          simpa using hne
        simp only [List.length_drop, List.length_cons] at hdigits ⊢
        omega
    · cases h

theorem hexNumber?_le {value : Number} (h : hexNumber? cs = some (value, n)) :
    0 < n ∧ n ≤ cs.length := by
  unfold hexNumber? at h
  split at h
  · next rest =>
    dsimp only at h
    split at h
    · cases h
      have := (List.takeWhile_prefix isHex (l := rest)).length_le
      simp only [List.length_cons]
      omega
    · cases h
  · cases h

theorem decimalNumber_le {value : Number} (h : decimalNumber cs = .ok (value, n)) :
    0 < n ∧ n ≤ cs.length := by
  unfold decimalNumber at h
  dsimp only at h
  have hwhole := (List.takeWhile_prefix isDecimal (l := cs)).length_le
  generalize hw : cs.takeWhile isDecimal = whole at h hwhole
  generalize hq : cs.drop whole.length = q at h
  have hqlen : q.length = cs.length - whole.length := by rw [← hq, List.length_drop]
  generalize hp : (if q.head? = some '.' then (q.drop 1).takeWhile isDecimal else []) =
    fraction at h
  generalize hpt : (if q.head? = some '.' then 1 + fraction.length else 0) = point at h
  have hpoint : point ≤ q.length ∧ (fraction ≠ [] → 0 < point) := by
    by_cases hd : q.head? = some '.'
    · rw [if_pos hd] at hp hpt
      have hfr := (List.takeWhile_prefix isDecimal (l := q.drop 1)).length_le
      have hpos : 0 < q.length := List.length_pos_iff.2 fun e => by simp [e] at hd
      rw [hp, List.length_drop] at hfr
      omega
    · rw [if_neg hd] at hp hpt
      exact ⟨by omega, fun hne => absurd hp.symm hne⟩
  split at h
  · cases h
  · next hne =>
    have hsome : 0 < whole.length + point := by
      simp only [Bool.and_eq_true, List.isEmpty_iff, not_and] at hne
      by_cases hz : whole = []
      · have := hpoint.2 (hne hz)
        omega
      · have := List.length_pos_iff.2 hz
        omega
    split at h
    · next hexp =>
      have := exponent?_le hexp
      cases h
      rw [List.length_drop] at this
      omega
    · split at h
      · cases h
        omega
      · split at h
        · cases h
        · next hno _ =>
          cases h
          rw [if_neg hno] at hpt
          omega

/-- A number takes some of the characters, and no more than there are. -/
theorem readNumber_le {value : Number} (h : readNumber cs = .ok (value, n)) :
    0 < n ∧ n ≤ cs.length := by
  unfold readNumber at h
  split at h
  · next hhex =>
    cases h
    exact hexNumber?_le hhex
  · exact decimalNumber_le h

/-! ## One piece -/

/-- A mark is found at the seam if it is found before it. -/
theorem stripStart_append (ms r b : List Char) (h : Tight r b)
    (hjoin : ∀ m ∈ ms, stopper m = false) (hsticky : ∀ m ∈ ms.dropLast, sticky m = true) :
    (stripStart ms (r ++ b)).isSome = (stripStart ms r).isSome := by
  induction ms generalizing r with
  | nil => simp [stripStart]
  | cons m ms ih =>
    cases r with
    | nil =>
      have hm := h.head? m (hjoin m (by simp))
      cases b with
      | nil => rfl
      | cons y t =>
        have hne : m ≠ y := fun e => absurd (hm.1 (by simp [e])) (by simp)
        simp [stripStart, hne]
    | cons c r =>
      simp only [List.cons_append, stripStart]
      by_cases hc : m = c
      · rw [if_pos hc, if_pos hc]
        cases ms with
        | nil => simp [stripStart]
        | cons m' ms =>
          have hm : sticky m = true := hsticky m (by simp)
          exact ih r (h.tail (hc ▸ hm)) (fun x hx => hjoin x (by simp_all))
            (fun x hx => hsticky x (by simp_all))
      · rw [if_neg hc, if_neg hc]

theorem startsWith_append (m : Char) (ms : List Char) (c : Char) (r b : List Char)
    (h : Tight (c :: r) b) (hm : sticky m = true) (hjoin : ms.any stopper = false)
    (hsticky : ms.dropLast.all sticky = true) :
    startsWith (String.ofList (m :: ms)) (c :: r ++ b) =
      startsWith (String.ofList (m :: ms)) (c :: r) := by
  simp only [startsWith, String.toList_ofList, List.cons_append, stripStart]
  by_cases hc : m = c
  · rw [if_pos hc, if_pos hc]
    exact stripStart_append ms r b (h.tail (hc ▸ hm))
      (fun x hx => Bool.eq_false_iff.2 (List.any_eq_false.1 hjoin x hx))
      (List.all_eq_true.1 hsticky)
  · rw [if_neg hc, if_neg hc]

/-- The longest mark ends before the seam. -/
theorem punctAt?_append (c : Char) (r b : List Char) (h : Tight (c :: r) b) :
    punctAt? (c :: r ++ b) = punctAt? (c :: r) := by
  have hmark : ∀ mark ∈ longMarks,
      startsWith mark (c :: r ++ b) = startsWith mark (c :: r) := by
    intro mark hmem
    simp only [longMarks, List.mem_cons, List.not_mem_nil, or_false] at hmem
    rcases hmem with rfl | rfl | rfl | rfl
    · exact startsWith_append '.' ['.', '.'] c r b h (by decide) (by decide) (by decide)
    · exact startsWith_append '=' ['>'] c r b h (by decide) (by decide) (by decide)
    · exact startsWith_append '?' ['.'] c r b h (by decide) (by decide) (by decide)
    · exact startsWith_append '?' ['?'] c r b h (by decide) (by decide) (by decide)
  have hfind : longMarks.find? (startsWith · (c :: r ++ b)) =
      longMarks.find? (startsWith · (c :: r)) := by
    generalize longMarks = marks at hmark
    induction marks with
    | nil => rfl
    | cons mark marks ih =>
      rw [List.find?_cons, List.find?_cons, hmark mark (by simp),
        ih fun m hm => hmark m (by simp [hm])]
  unfold punctAt?
  rw [hfind]
  rfl

theorem punctAt?_le {mark : String} (h : punctAt? (c :: r) = some mark) :
    0 < mark.length ∧ mark.length ≤ r.length + 1 := by
  obtain ⟨hstart, hmark⟩ := punctAt?_cases h
  have hle := hstart.length_le
  rw [String.length_toList] at hle
  refine ⟨?_, hle⟩
  have hpos : ∀ mark ∈ longMarks, 0 < mark.length := by decide
  rcases hmark with hmem | ⟨rfl, -⟩
  · exact hpos mark hmem
  · simp

theorem startsNumber_append (c : Char) (r b : List Char) (h : Tight (c :: r) b) :
    startsNumber c (r ++ b) = startsNumber c r := by
  unfold startsNumber
  by_cases hc : c = '.'
  · subst hc
    have hr := h.tail (c := '.') (by decide)
    cases r with
    | cons d ds => rfl
    | nil =>
      cases b with
      | nil => rfl
      | cons y t =>
        have hy : isDigit y = false := by
          rcases hr with hr | ⟨x, hx, -⟩
          · exact (stopper_facts (hr y rfl)).2.1
          · cases hx
        simp [hy]
  · simp [hc]

/-- A lexeme that is no template with a substitution. -/
def isPlain : Lexeme → Bool
  | .template _ marked => !marked
  | _ => true

theorem LexemeAt.bounds {l : Lexeme} (h : LexemeAt c r l n) : 0 < n ∧ n ≤ r.length + 1 := by
  cases h with
  | text | template => simp
  | number _ _ hread => simpa using readNumber_le hread
  | name => exact ⟨by simp, by simpa using (List.takeWhile_prefix isNamePart (l := r)).length_le⟩
  | punct _ _ _ hmark => exact punctAt?_le hmark

/-- A lexeme ends before the seam. -/
theorem LexemeAt.append {l : Lexeme} (h : LexemeAt c r l n) (htight : Tight (c :: r) b) :
    LexemeAt c (r ++ b) l n := by
  cases h with
  | text hc hw =>
    rw [List.append_assoc]
    exact .text hc hw
  | template hc hw =>
    rw [List.append_assoc]
    exact .template hc hw
  | number hc hstart hread =>
    refine .number hc (by rwa [startsNumber_append c r b htight]) ?_
    rwa [← List.cons_append, readNumber_append _ _ htight]
  | name hc hstart hname =>
    have hsticky : sticky c = true := by simp [sticky, isNamePart_of_isNameStart hname]
    rw [← (htight.tail hsticky).names]
    exact .name hc (by rwa [startsNumber_append c r b htight]) hname
  | punct hc hstart hname hmark =>
    refine .punct hc (by rwa [startsNumber_append c r b htight]) hname ?_
    rwa [← List.cons_append, punctAt?_append c r b htight]

/-- A piece that may be followed by more code: no remark, and no template with a substitution. -/
def Piece.isPlain : Piece → Bool
  | .remark => false
  | .lexeme l => Token.isPlain l
  | _ => true

theorem Piece.ne_remark_of_isPlain (h : p.isPlain = true) : p ≠ .remark := by
  rintro rfl
  cases h

theorem opensRemark_append (h : Tight (c :: r) b) : opensRemark c (r ++ b) = opensRemark c r := by
  unfold opensRemark
  by_cases hc : c = '/'
  · have hr : Tight r b := h.tail (hc ▸ by decide)
    simp only [hr.head? '/' (by decide), hr.head? '*' (by decide)]
  · simp [hc]

/-- A piece takes at least one character, and no more than there are. -/
theorem pieceAt_le (h : pieceAt c r = .ok (p, n)) : 0 < n ∧ n ≤ r.length + 1 := by
  cases pieceAt_eq_ok_iff.1 h with
  | blank | remark => simp
  | comment => exact ⟨by simp, by simp only [List.length_cons, List.length_append]; omega⟩
  | lexeme _ _ hl => exact hl.bounds

/-- A piece that is no remark ends before the seam. -/
theorem pieceAt_append (c : Char) (r b : List Char) (p : Piece) (n : Nat)
    (hremark : p ≠ .remark) (htight : Tight (c :: r) b) (h : pieceAt c r = .ok (p, n)) :
    pieceAt c (r ++ b) = .ok (p, n) ∧ 0 < n ∧ n ≤ r.length + 1 := by
  refine ⟨pieceAt_eq_ok_iff.2 ?_, pieceAt_le h⟩
  cases pieceAt_eq_ok_iff.1 h with
  | blank hc => exact .blank hc
  | remark => exact absurd rfl hremark
  | comment hw =>
    rw [List.cons_append, List.append_assoc]
    exact .comment hw
  | lexeme hc hopen hl =>
    exact .lexeme hc ((opensRemark_append htight).trans hopen) (hl.append htight)

theorem pieceAt_blank {rest : List Char} (h : pieceAt c rest = .ok (.blank, n)) :
    isBlank c = true ∧ n = 1 := by
  cases pieceAt_eq_ok_iff.1 h with
  | blank hc => exact ⟨hc, rfl⟩

/-! ## All pieces -/

theorem advance_append (here : Cursor) (a b : List Char) :
    here.advance (a ++ b) = (here.advance a).advance b :=
  List.foldl_append

/-- The rest of a text that ends tightly ends tightly, or there is nothing left of it. -/
theorem Tight.rest (h : Tight r b) (n : Nat) : r.drop n = [] ∨ Tight (r.drop n) b := by
  by_cases hnil : r.drop n = []
  · exact Or.inl hnil
  · refine Or.inr ?_
    rcases h with h | ⟨x, hx, hs⟩
    · exact Or.inl h
    · refine Or.inr ⟨x, ?_, hs⟩
      rw [List.getLast?_drop, if_neg (by simpa [List.drop_eq_nil_iff] using hnil)]
      exact hx

theorem pieces_nil (here : Cursor) : pieces here [] = .ok [] := by
  unfold pieces
  rfl

theorem pieces_cons {here : Cursor} {rest : List Char} {more : List Placed}
    (h : pieceAt c rest = .ok (p, n))
    (hmore : pieces (here.advance ((c :: rest).take n)) (rest.drop (n - 1)) = .ok more) :
    pieces here (c :: rest) = .ok (⟨p, here, here.advance ((c :: rest).take n)⟩ :: more) := by
  unfold pieces
  simp only [h, hmore]
  rfl

/-- A text is cut into pieces, one after the other. -/
inductive CutInto : Cursor → List Char → List Placed → Prop
  | nil (here : Cursor) : CutInto here [] []
  | cons {here : Cursor} {c : Char} {rest : List Char} {p : Piece} {n : Nat} {more : List Placed}
      (hat : pieceAt c rest = .ok (p, n))
      (hmore : CutInto (here.advance ((c :: rest).take n)) (rest.drop (n - 1)) more) :
      CutInto here (c :: rest) (⟨p, here, here.advance ((c :: rest).take n)⟩ :: more)

/-- The pieces, as a relation. -/
theorem pieces_eq_ok_iff {here : Cursor} {cs : List Char} {placed : List Placed} :
    pieces here cs = .ok placed ↔ CutInto here cs placed := by
  constructor
  · intro h
    fun_induction pieces here cs generalizing placed with
    | case1 here =>
      cases h
      exact .nil here
    | case2 => cases h
    | case3 here c rest piece n hat =>
      rename_i ih
      obtain ⟨more, hmore, h⟩ := bind_eq_ok.1 h
      cases h
      exact .cons hat (ih hmore)
  · intro h
    induction h with
    | nil here => exact pieces_nil here
    | cons hat _ ih => exact pieces_cons hat ih

/-- What is left after the first `n` characters. -/
theorem drop_pred (hpos : 0 < n) (c : Char) (rest : List Char) :
    rest.drop (n - 1) = (c :: rest).drop n := by
  rw [← Nat.succ_pred_eq_of_pos hpos, List.drop_succ_cons]
  rfl

theorem advance_rest (hpos : 0 < n) (here : Cursor) (c : Char) (rest : List Char) :
    here.advance (c :: rest) =
      (here.advance ((c :: rest).take n)).advance (rest.drop (n - 1)) := by
  rw [drop_pred hpos c, ← advance_append, List.take_append_drop]

/-- A first piece that does not reach into the text behind. -/
theorem pieces_extend_eq_map {here : Cursor} {rest : List Char}
    (h : pieceAt c (rest ++ b) = .ok (p, n)) (hle : n ≤ rest.length + 1) :
    pieces here (c :: rest ++ b) =
      (pieces (here.advance ((c :: rest).take n)) (rest.drop (n - 1) ++ b)).map
        (⟨p, here, here.advance ((c :: rest).take n)⟩ :: ·) := by
  have htake : (c :: (rest ++ b)).take n = (c :: rest).take n := by
    rw [← List.cons_append, List.take_append_of_le_length hle]
  have hdrop : (rest ++ b).drop (n - 1) = rest.drop (n - 1) ++ b :=
    List.drop_append_of_le_length (by omega)
  rw [List.cons_append]
  conv => lhs; unfold pieces
  simp only [h, htake, hdrop]
  cases pieces (here.advance ((c :: rest).take n)) (rest.drop (n - 1) ++ b) <;> rfl

theorem pieces_cons_extend {here : Cursor} {rest : List Char} {more : List Placed}
    (h : pieceAt c (rest ++ b) = .ok (p, n)) (hle : n ≤ rest.length + 1)
    (hmore : pieces (here.advance ((c :: rest).take n)) (rest.drop (n - 1) ++ b) = .ok more) :
    pieces here (c :: rest ++ b) =
      .ok (⟨p, here, here.advance ((c :: rest).take n)⟩ :: more) := by
  rw [pieces_extend_eq_map h hle, hmore]
  rfl

/-- What stands behind a tight seam is cut as it is alone, or refused as it is alone. -/
theorem pieces_append_eq_map (here : Cursor) (a b : List Char) (pa : List Placed)
    (hplain : ∀ p ∈ pa, p.piece.isPlain = true) (htight : a = [] ∨ Tight a b)
    (ha : pieces here a = .ok pa) :
    pieces here (a ++ b) = (pieces (here.advance a) b).map (pa ++ ·) := by
  rw [pieces_eq_ok_iff] at ha
  induction ha with
  | nil here =>
    show pieces here b = (pieces here b).map _
    cases pieces here b <;> rfl
  | @cons here c rest piece n more hpiece _ ih =>
    have htight : Tight (c :: rest) b := by simpa using htight
    obtain ⟨hat, hpos, hle⟩ :=
      pieceAt_append c rest b piece n (Piece.ne_remark_of_isPlain (hplain _ List.mem_cons_self))
        htight hpiece
    have hrest : rest.drop (n - 1) = [] ∨ Tight (rest.drop (n - 1)) b :=
      drop_pred hpos c rest ▸ htight.rest n
    rw [pieces_extend_eq_map hat hle,
      ih (fun p hp => hplain p (List.mem_cons_of_mem _ hp)) hrest,
      advance_rest hpos here c rest]
    cases pieces (Cursor.advance _ (rest.drop (n - 1))) b <;> rfl

/-- The pieces of both sides of a tight seam, one after the other. -/
theorem pieces_append (here : Cursor) (a b : List Char) (pa pb : List Placed)
    (hplain : ∀ p ∈ pa, p.piece.isPlain = true) (htight : a = [] ∨ Tight a b)
    (ha : pieces here a = .ok pa) (hb : pieces (here.advance a) b = .ok pb) :
    pieces here (a ++ b) = .ok (pa ++ pb) := by
  rw [pieces_append_eq_map here a b pa hplain htight ha, hb]
  rfl

end EventFlow.Token
