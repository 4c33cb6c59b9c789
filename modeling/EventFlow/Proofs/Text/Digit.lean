import EventFlow.Number.Basic
import EventFlow.Text.Digit
import EventFlow.Text.Units
import Mathlib.Algebra.Ring.Nat

/-! Digits and code units, written and read back.

    ofHexs (toHexs w n)  = n mod 16^w
    ofDecimals (decimalChars n) = n
    ofUnits (toUnits cs) = cs -/

namespace EventFlow.Text

/-! ## Hexadecimal digits -/

theorem hexValue?_hexDigit : ∀ n < 16, hexValue? (hexDigit n) = some n := by decide

theorem length_toHexs (width n : Nat) : (toHexs width n).length = width := by
  induction width generalizing n with
  | zero => rfl
  | succ width ih => simp [toHexs, ih]

theorem all_isHex_toHexs (width n : Nat) : (toHexs width n).all isHex = true := by
  induction width generalizing n with
  | zero => rfl
  | succ width ih =>
    have hd : isHex (hexDigit (n % 16)) = true := by
      rw [isHex, hexValue?_hexDigit (n % 16) (by omega)]
      rfl
    simp [toHexs, ih, hd]

theorem ofHexs_toHexs (width n : Nat) : ofHexs (toHexs width n) = n % 16 ^ width := by
  induction width generalizing n with
  | zero => simp [toHexs, ofHexs, Nat.mod_one]
  | succ width ih =>
    have hstep : ofHexs (toHexs (width + 1) n) = 16 * ofHexs (toHexs width (n / 16)) + n % 16 := by
      rw [toHexs, ofHexs, List.foldl_append]
      show 16 * _ + (hexValue? (hexDigit (n % 16))).getD 0 = _
      rw [hexValue?_hexDigit (n % 16) (by omega)]
      rfl
    rw [hstep, ih, Nat.pow_succ', Nat.mod_mul]
    omega

/-! ## Decimal digits -/

theorem decimalValue?_of_isDigit (c : Char) (h : c.isDigit = true) :
    decimalValue? c = some (c.toNat - 0x30) := by
  have hlt : c.toNat < 0x80 := by
    simp only [Char.isDigit, Bool.and_eq_true, decide_eq_true_eq, ge_iff_le] at h
    have := UInt32.le_iff_toNat_le.1 h.2
    simp at this
    omega
  unfold decimalValue?
  rw [if_pos hlt, if_pos h]

theorem isDigit_of_mem_decimalChars {n : Nat} {c : Char} (h : c ∈ Number.decimalChars n) :
    c.isDigit = true :=
  Nat.isDigit_of_mem_toDigits (by omega) (by omega) h

theorem ofDecimals_decimalChars (n : Nat) : ofDecimals (Number.decimalChars n) = n := by
  have hfold : ∀ (cs : List Char) (init : Nat), (∀ c ∈ cs, c.isDigit = true) →
      cs.foldl (fun n c => 10 * n + (decimalValue? c).getD 0) init =
        Nat.ofDigitChars 10 cs init := by
    intro cs
    induction cs with
    | nil => simp
    | cons c cs ih =>
      intro init h
      rw [List.foldl_cons, Nat.ofDigitChars_cons, decimalValue?_of_isDigit c (h c (by simp)),
        ih _ fun d hd => h d (by simp [hd])]
      rfl
  rw [ofDecimals, hfold _ _ fun c hc => isDigit_of_mem_decimalChars hc]
  exact Nat.ofDigitChars_ten_toDigits

/-! ## Code units -/

theorem isHighSurrogate_toNat (c : Char) : isHighSurrogate c.toNat = false := by
  simp only [isHighSurrogate, Bool.and_eq_false_iff, decide_eq_false_iff_not]
  have hv : c.toNat.isValidChar := c.valid
  unfold Nat.isValidChar at hv
  omega

theorem isLowSurrogate_toNat (c : Char) : isLowSurrogate c.toNat = false := by
  simp only [isLowSurrogate, Bool.and_eq_false_iff, decide_eq_false_iff_not]
  have hv : c.toNat.isValidChar := c.valid
  unfold Nat.isValidChar at hv
  omega

theorem ofUnit_toNat (c : Char) : ofUnit c.toNat = c := by
  simp [ofUnit, isHighSurrogate_toNat, isLowSurrogate_toNat]

/-- The unit of a character stands for it, whatever follows. -/
theorem ofUnits_toNat_cons (c : Char) (units : List Nat) :
    ofUnits (c.toNat :: units) = c :: ofUnits units := by
  cases units with
  | nil => simp [ofUnits, ofUnit_toNat]
  | cons u us => simp [ofUnits, isHighSurrogate_toNat, ofUnit_toNat]

theorem ofUnits_toUnits (cs : List Char) : ofUnits (toUnits cs) = cs := by
  induction cs with
  | nil => rfl
  | cons c cs ih =>
    rw [toUnits, List.map_cons, ofUnits_toNat_cons]
    exact congrArg _ ih

end EventFlow.Text
