import EventFlow.Emission.Quoted
import EventFlow.Proofs.Text.Digit
import EventFlow.Proofs.Token.Body

/-! Texts in quotes and templates are read back as they were written, whatever follows them.

    readString '\'' (quote v ++ rest)        = ok (v, length of quote v)
    readTemplate (quoteTemplate v ++ rest)   = ok (v, false, length of quoteTemplate v) -/

namespace EventFlow.Token

open Emission Text

variable {units : List Nat} {w : List Char}

/-! ## Texts -/

theorem isEscape_letter {c : Char} (hx : c ≠ 'x') (hu : c ≠ 'u') (hn : c ≠ '\n') :
    IsEscape [c] [(simpleEscape? c).getD c.toNat] where
  read rest := by
    show escape (c :: rest) = _
    unfold escape
    split <;> simp_all
  digits := ⟨c, [], rfl, nofun⟩

theorem isEscape_hex (n : Nat) (hn : n < 0x100) : IsEscape ('x' :: toHexs 2 n) [n] where
  read rest := by
    have htake : (toHexs 2 n ++ rest).take 2 = toHexs 2 n :=
      List.take_left' (length_toHexs 2 n)
    have hval : ofHexs (toHexs 2 n) = n := by
      rw [ofHexs_toHexs]
      omega
    simp only [List.cons_append, escape, hexEscape, htake, hval, length_toHexs,
      all_isHex_toHexs, List.length_cons]
    rfl
  digits := ⟨'x', _, rfl, fun x hx =>
    Or.inl (List.all_eq_true.1 (all_isHex_toHexs 2 n) x hx)⟩

theorem isEscape_unit (n : Nat) (hn : n < 0x10000) : IsEscape ('u' :: toHexs 4 n) [n] where
  read rest := by
    have htake : (toHexs 4 n ++ rest).take 4 = toHexs 4 n :=
      List.take_left' (length_toHexs 4 n)
    have hval : ofHexs (toHexs 4 n) = n := by
      rw [ofHexs_toHexs]
      omega
    have hall := all_isHex_toHexs 4 n
    have hlen := length_toHexs 4 n
    have hread : hexEscape .badUnicodeEscape 4 (toHexs 4 n ++ rest) = .ok ([n], 4) := by
      simp only [hexEscape, htake, hval, hlen, hall]
      rfl
    -- the first digit is no brace, so the escape is the one of four digits
    rw [List.length_cons, hlen]
    cases hd : toHexs 4 n with
    | nil => simp [hd] at hlen
    | cons d ds =>
      rw [hd] at hread hall
      have hbrace : d ≠ '{' := by
        rintro rfl
        simp at hall
        exact absurd hall.1 (by decide)
      exact (escape_unicode hbrace _).trans (bind_eq_ok.2 ⟨_, hread, rfl⟩)
  digits := ⟨'u', _, rfl, fun x hx =>
    Or.inl (List.all_eq_true.1 (all_isHex_toHexs 4 n) x hx)⟩

/-- The characters of a text that are written with a letter, and the letters. -/
def letters : List (Char × Char) :=
  [('\\', '\\'), ('\'', '\''), ('\n', 'n'), ('\r', 'r'), ('\t', 't'), ('\x08', 'b'), ('\x0c', 'f'),
    ('\x0b', 'v')]

/-- A quoted character is read as its code unit. -/
theorem StringBody.quotedChar (c : Char) {more : List Nat} (h : StringBody '\'' w more) :
    StringBody '\'' (quotedChar c ++ w) (c.toNat :: more) := by
  have hletters : ∀ p ∈ letters, Emission.quotedChar p.1 = ['\\', p.2] ∧ p.2 ≠ 'x' ∧ p.2 ≠ 'u' ∧
      p.2 ≠ '\n' ∧ (simpleEscape? p.2).getD p.2.toNat = p.1.toNat := by decide
  by_cases hc : c ∈ letters.map (·.1)
  · obtain ⟨⟨c, e⟩, hmem, rfl⟩ := List.mem_map.1 hc
    obtain ⟨heq, hx, hu, hn, hval⟩ := hletters _ hmem
    rw [heq, ← hval]
    exact .escape (by decide) (isEscape_letter hx hu hn) h
  simp only [letters, List.map_cons, List.map_nil, List.mem_cons, List.not_mem_nil, or_false,
    not_or] at hc
  by_cases hline : c = '\u2028' ∨ c = '\u2029'
  · have heq : Emission.quotedChar c = '\\' :: 'u' :: toHexs 4 c.toNat := by
      simp [Emission.quotedChar, hc, hline]
    have hlt : c.toNat < 0x10000 := by
      rcases hline with rfl | rfl <;> decide
    rw [heq]
    exact .escape (by decide) (isEscape_unit c.toNat hlt) h
  by_cases hcontrol : c.toNat < 0x20
  · have heq : Emission.quotedChar c = '\\' :: 'x' :: toHexs 2 c.toNat := by
      simp [Emission.quotedChar, hc, hline, hcontrol]
    rw [heq]
    exact .escape (by decide) (isEscape_hex c.toNat (by omega)) h
  · have heq : Emission.quotedChar c = [c] := by
      simp [Emission.quotedChar, hc, hline, hcontrol]
    rw [heq]
    exact .char hc.2.2.1 hc.2.1 hc.1 h

theorem stringBody_quotedChars (cs : List Char) :
    StringBody '\'' (quotedChars cs ++ ['\'']) (toUnits cs) := by
  induction cs with
  | nil => exact .close (by decide)
  | cons c cs ih =>
    rw [quotedChars, List.flatMap_cons, List.append_assoc]
    exact ih.quotedChar c

theorem readString_quote (s : String) (rest : List Char) :
    readString '\'' ((quote s).toList ++ rest) =
      .ok (s, (quote s).toList.length) := by
  have hchars : (quote s).toList = '\'' :: (quotedChars s.toList ++ ['\'']) := by
    simp [quote]
  have hread := (stringBody_quotedChars s.toList).readString '\'' rest
  rw [hchars, List.length_cons, List.cons_append, hread, ofUnits_toUnits, String.ofList_toList]

/-- A text that needs no escapes. -/
def isVerbatim (s : String) : Bool := s.toList.all fun c => c ≠ '\'' && c ≠ '\\' && c ≠ '\n'

theorem stringBody_verbatim {cs : List Char}
    (h : (cs.all fun c => c ≠ '\'' && c ≠ '\\' && c ≠ '\n') = true) :
    StringBody '\'' (cs ++ ['\'']) (toUnits cs) := by
  induction cs with
  | nil => exact .close (by decide)
  | cons c cs ih =>
    simp only [List.all_cons, Bool.and_eq_true, decide_eq_true_eq] at h
    obtain ⟨⟨⟨hquote, hescape⟩, hline⟩, h⟩ := h
    exact .char hline hquote hescape (ih (by simpa using h))

theorem length_escape_le {cs : List Char} {n : Nat} (h : escape cs = .ok (units, n)) :
    units.length ≤ 1 := by
  have hhex : ∀ {fault : Fault} {width : Nat} {cs : List Char} {r : List Nat × Nat},
      hexEscape fault width cs = .ok r → r.1.length ≤ 1 := by
    intro fault width cs r h
    unfold hexEscape at h
    dsimp only at h
    split at h
    · cases h
      exact Nat.le_refl 1
    · cases h
  have hbraced : ∀ {cs : List Char} {r : List Nat × Nat},
      bracedEscape cs = .ok r → r.1.length ≤ 1 := by
    intro cs r h
    unfold bracedEscape at h
    dsimp only at h
    split at h
    · split at h
      · cases h
        exact Nat.le_refl 1
      · cases h
    · cases h
  unfold escape at h
  split at h
  · cases h
  · obtain ⟨r, hr, h⟩ := bind_eq_ok.1 h
    cases h
    exact hhex hr
  · obtain ⟨r, hr, h⟩ := bind_eq_ok.1 h
    cases h
    exact hbraced hr
  · obtain ⟨r, hr, h⟩ := bind_eq_ok.1 h
    cases h
    exact hhex hr
  · cases h
    exact Nat.zero_le 1
  · cases h
    exact Nat.le_refl 1

/-- An escape is longer than what it stands for, so a text that is read to its full length has no
escapes. -/
theorem StringBody.exists_body {q : Char} (h : StringBody q w units) :
    ∃ body, w = body ++ [q] ∧ units.length ≤ body.length ∧
      (body.length ≤ units.length → ∀ c ∈ body, c ≠ q ∧ c ≠ '\\' ∧ c ≠ '\n') := by
  induction h with
  | close => exact ⟨[], rfl, Nat.le_refl 0, fun _ => by simp⟩
  | @escape e w units more hq he _ ih =>
    obtain ⟨body, rfl, hle, -⟩ := ih
    have hone : units.length ≤ 1 := length_escape_le (he.read [])
    have hpos : 0 < e.length := by
      obtain ⟨c, t, rfl, -⟩ := he.digits
      exact Nat.succ_pos _
    have hlt : (units ++ more).length < ('\\' :: (e ++ body)).length := by
      simp only [List.length_append, List.length_cons]
      omega
    exact ⟨'\\' :: (e ++ body), by simp, Nat.le_of_lt hlt, fun hge => absurd hlt (by omega)⟩
  | @char c w more hn hq hb _ ih =>
    obtain ⟨body, rfl, hle, hplain⟩ := ih
    refine ⟨c :: body, rfl, Nat.succ_le_succ hle, fun hge x hx => ?_⟩
    rcases List.mem_cons.1 hx with rfl | hx
    · exact ⟨hq, hb, hn⟩
    · exact hplain (Nat.le_of_succ_le_succ hge) x hx

theorem length_ofUnits_le (units : List Nat) : (ofUnits units).length ≤ units.length := by
  fun_induction ofUnits units with
  | case1 => exact Nat.le_refl 0
  | case2 => exact Nat.le_refl 1
  | case3 high low rest _ ih =>
    simp only [List.length_cons]
    omega
  | case4 high low rest _ ih => exact Nat.succ_le_succ ih

/-- Only a text that needs no escapes is read back from between two quotes. -/
theorem isVerbatim_of_stringBody {s : String} {t tail : List Char} (h : StringBody '\'' w units)
    (hw : w ++ t = s.toList ++ '\'' :: tail) (htail : '\'' ∉ tail) (hs : ofUnits units = s.toList) :
    isVerbatim s = true := by
  obtain ⟨body, rfl, hle, hplain⟩ := h.exists_body
  have hlength : s.toList.length ≤ units.length := hs ▸ length_ofUnits_le units
  rw [List.append_assoc, List.singleton_append] at hw
  have hbody : body = s.toList := by
    rcases List.append_eq_append_iff.1 hw with ⟨more, hmore, -⟩ | ⟨more, hmore, hrest⟩
    · have hshort := congrArg List.length hmore
      rw [List.length_append] at hshort
      obtain rfl : more = [] := List.eq_nil_of_length_eq_zero (by omega)
      rw [hmore, List.append_nil]
    · cases more with
      | nil => rw [hmore, List.append_nil]
      | cons c more =>
        rw [(List.cons.inj hrest).2] at htail
        simp at htail
  rw [isVerbatim, List.all_eq_true]
  intro c hc
  rw [hbody] at hplain
  simpa [and_assoc] using hplain hlength c hc

/-! ## Templates -/

/-- What a template opens with after a dollar sign is no brace. -/
theorem head?_templateChars_ne (cs : List Char) (h : ∀ t, cs ≠ '{' :: t) :
    (templateChars cs ++ ['`']).head? ≠ some '{' := by
  fun_cases templateChars cs with
  | case1 => simp
  | case2 t => simp
  | case3 c t _ hc => simp
  | case4 c t _ hc =>
    intro hhead
    obtain rfl : c = '{' := by simpa using hhead
    exact h t rfl

theorem templateBody_templateChars (cs : List Char) :
    TemplateBody (templateChars cs ++ ['`']) (toUnits cs) false := by
  fun_induction templateChars cs with
  | case1 => exact .close
  | case2 t ih =>
    have hbrace := TemplateBody.char (c := '{') (by decide) (by decide) (fun h => by cases h) ih
    exact .escape (isEscape_letter (c := '$') (by decide) (by decide) (by decide)) hbrace
  | case3 c t _ hc ih =>
    have hcases : c = '\\' ∨ c = '`' := by simpa using hc
    rcases hcases with rfl | rfl <;>
      exact .escape (isEscape_letter (by decide) (by decide) (by decide)) ih
  | case4 c t hopen hc ih =>
    simp only [Bool.or_eq_true, decide_eq_true_eq, not_or] at hc
    refine .char hc.2 hc.1 ?_ ih
    rintro rfl
    exact head?_templateChars_ne t fun u hu => hopen u rfl hu

theorem readTemplate_quoteTemplate (s : String) (rest : List Char) :
    readTemplate ((quoteTemplate s).toList ++ rest) =
      .ok (s, false, (quoteTemplate s).toList.length) := by
  have hchars : (quoteTemplate s).toList = '`' :: (templateChars s.toList ++ ['`']) := by
    simp [quoteTemplate]
  have hread := (templateBody_templateChars s.toList).readTemplate '`' rest
  rw [hchars, List.length_cons, List.cons_append, hread, ofUnits_toUnits, String.ofList_toList]

end EventFlow.Token
