import EventFlow.Proofs.Bind
import EventFlow.Proofs.Text.Line
import EventFlow.Token.Scan

/-! What literals, comments and lexemes are made of.

Each reader takes some characters off the front of a text. What it takes is described here apart
from the text behind it, one constructor for each step that the reader can make:

    stringBody q taken cs = ok (units, total) ↔ cs = w ++ rest, total = taken + length of w,
                                                and StringBody q w units

Proofs about what is read go by induction over this description. -/

namespace EventFlow.Token

open Text

variable {cs w rest : List Char} {c quote : Char} {units more : List Nat} {n total taken : Nat}
  {marked : Bool} {l : Lexeme} {p : Piece}

/-! ## Escapes -/

/-- The characters of an escape behind its backslash. -/
structure IsEscape (w : List Char) (units : List Nat) : Prop where
  read : ∀ rest, escape (w ++ rest) = .ok (units, w.length)
  digits : ∃ c t, w = c :: t ∧ ∀ x ∈ t, isHex x = true ∨ x = '{' ∨ x = '}'

theorem exists_hexEscape {fault : Fault} {width : Nat} {r : List Nat × Nat}
    (h : hexEscape fault width cs = .ok r) :
    ∃ w rest, cs = w ++ rest ∧ w.length = width ∧ r.2 = width ∧ (∀ x ∈ w, isHex x = true) ∧
      ∀ rest, hexEscape fault width (w ++ rest) = .ok r := by
  unfold hexEscape at h ⊢
  dsimp only at h
  split at h
  · next hd =>
    cases h
    simp only [Bool.and_eq_true, decide_eq_true_eq, List.all_eq_true] at hd
    refine ⟨_, _, (List.take_append_drop width cs).symm, hd.1, rfl, hd.2, fun rest => ?_⟩
    rw [List.take_left' hd.1]
    simp only [hd.1, decide_true, Bool.true_and, List.all_eq_true.2 hd.2, if_true]
  · cases h

theorem exists_bracedEscape {r : List Nat × Nat} (h : bracedEscape cs = .ok r) :
    ∃ w rest, cs = w ++ rest ∧ r.2 = w.length ∧ (∀ x ∈ w, isHex x = true ∨ x = '}') ∧
      ∀ rest, bracedEscape (w ++ rest) = .ok r := by
  unfold bracedEscape at h ⊢
  dsimp only at h
  split at h
  · next hd =>
    simp only [Bool.and_eq_true, decide_eq_true_eq, List.all_eq_true] at hd
    obtain ⟨⟨⟨hlt, hpos⟩, hsix⟩, hhex⟩ := hd
    have hsplit := List.takeWhile_append_dropWhile (p := (· ≠ '}')) (l := cs)
    have hclose := List.head?_dropWhile_not (· ≠ '}') cs
    have hbefore : ∀ x ∈ cs.takeWhile (· ≠ '}'), decide (x ≠ '}') = true :=
      List.all_eq_true.1 List.all_takeWhile
    generalize cs.takeWhile (· ≠ '}') = digits at *
    -- the digits are followed by the brace that ends them
    cases hmore : cs.dropWhile (· ≠ '}') with
    | nil =>
      rw [hmore, List.append_nil] at hsplit
      rw [hsplit] at hlt
      omega
    | cons d rest =>
      rw [hmore] at hsplit hclose
      obtain rfl : d = '}' := by simpa using hclose
      have hdigits : ∀ rest, (digits ++ '}' :: rest).takeWhile (· ≠ '}') = digits := fun rest => by
        rw [List.takeWhile_append_of_pos hbefore]
        simp
      split at h
      · next hsmall =>
        cases h
        refine ⟨digits ++ ['}'], rest, by simp [hsplit], by simp, ?_, fun rest => ?_⟩
        · intro x hx
          rcases List.mem_append.1 hx with hx | hx
          · exact Or.inl (hhex x hx)
          · exact Or.inr (List.mem_singleton.1 hx)
        · rw [List.append_assoc, List.singleton_append]
          simp only [hdigits, hpos, hsix, List.all_eq_true.2 hhex, hsmall, List.length_append,
            List.length_cons, decide_true, Bool.and_true, if_true]
          rw [if_pos (by simp)]
      · cases h
  · cases h

/-- After a backslash every other character stands alone. -/
theorem escape_single (hx : c ≠ 'x') (hu : c ≠ 'u') (rest : List Char) :
    escape (c :: rest) = escape [c] ∧ ∃ units, escape [c] = .ok (units, 1) := by
  by_cases hn : c = '\n'
  · subst hn
    exact ⟨rfl, _, rfl⟩
  · have hself : ∀ more, escape (c :: more) = .ok ([(simpleEscape? c).getD c.toNat], 1) := by
      intro more
      unfold escape
      split <;> simp_all
    exact ⟨(hself rest).trans (hself []).symm, _, hself []⟩

theorem escape_unicode (hc : c ≠ '{') (rest : List Char) :
    escape ('u' :: c :: rest) = hexEscape .badUnicodeEscape 4 (c :: rest) >>= fun r =>
      .ok (r.1, r.2 + 1) := by
  unfold escape
  split
  · next h => cases h
  · next h => cases h
  · next h => exact absurd (List.cons.inj (List.cons.inj h).2).1 hc
  · next h =>
    cases h
    rfl
  · next h => cases h
  · next hu _ h => exact absurd (List.cons.inj h).1.symm (by simpa using hu)

theorem exists_escape (h : escape cs = .ok (units, n)) :
    ∃ w rest, cs = w ++ rest ∧ n = w.length ∧ IsEscape w units := by
  cases cs with
  | nil => cases h
  | cons c cs =>
    by_cases hx : c = 'x'
    · subst hx
      obtain ⟨⟨us, width⟩, hp, h⟩ := (bind_eq_ok (x := hexEscape .badHexEscape 2 cs)).1 h
      cases h
      obtain ⟨w, rest, rfl, hw, rfl, hhex, hread⟩ := exists_hexEscape hp
      refine ⟨'x' :: w, rest, rfl, by simp [hw], fun rest => ?_, 'x', w, rfl, fun x hx =>
        Or.inl (hhex x hx)⟩
      rw [List.length_cons, hw]
      exact bind_eq_ok.2 ⟨_, hread rest, rfl⟩
    by_cases hu : c = 'u'
    · subst hu
      cases cs with
      | nil => cases h
      | cons d ds =>
        by_cases hd : d = '{'
        · subst hd
          obtain ⟨⟨us, width⟩, hp, h⟩ := (bind_eq_ok (x := bracedEscape ds)).1 h
          cases h
          obtain ⟨w, rest, rfl, rfl, hhex, hread⟩ := exists_bracedEscape hp
          refine ⟨'u' :: '{' :: w, rest, rfl, rfl, fun rest => ?_, 'u', '{' :: w, rfl, ?_⟩
          · exact bind_eq_ok.2 ⟨_, hread rest, rfl⟩
          · intro x hx
            rcases List.mem_cons.1 hx with rfl | hx
            · exact Or.inr (Or.inl rfl)
            · exact (hhex x hx).imp_right Or.inr
        · obtain ⟨⟨us, width⟩, hp, h⟩ := bind_eq_ok.1 ((escape_unicode hd _).symm.trans h)
          cases h
          obtain ⟨w, rest, hsplit, hw, rfl, hhex, hread⟩ := exists_hexEscape hp
          obtain ⟨w, rfl⟩ : ∃ t, w = d :: t := by
            cases w with
            | nil => cases hw
            | cons e t => exact ⟨t, by rw [(List.cons.inj hsplit).1]⟩
          rw [hsplit]
          refine ⟨'u' :: d :: w, rest, rfl, by simp [← hw], fun rest => ?_, 'u', d :: w, rfl,
            fun x hx => Or.inl (hhex x hx)⟩
          rw [List.length_cons, hw]
          exact (escape_unicode hd _).trans (bind_eq_ok.2 ⟨_, hread rest, rfl⟩)
    · obtain ⟨hself, units', hone⟩ := escape_single hx hu cs
      rw [hself, hone] at h
      cases h
      exact ⟨[c], cs, rfl, rfl, fun rest => (escape_single hx hu rest).1.trans hone, c, [], rfl,
        nofun⟩

/-! ## Texts -/

theorem stringBody_backslash (hq : quote ≠ '\\') (taken : Nat) (cs : List Char)
    (he : escape cs = .ok (units, n))
    (h : stringBody quote (taken + 1 + n) (cs.drop n) = .ok (more, total)) :
    stringBody quote taken ('\\' :: cs) = .ok (units ++ more, total) := by
  rw [stringBody]
  simp only [he, h, show ('\\' : Char) ≠ '\n' by decide, hq.symm, if_false, if_true]
  rfl

theorem stringBody_plain (hn : c ≠ '\n') (hq : c ≠ quote) (hb : c ≠ '\\') (taken : Nat)
    (cs : List Char) (h : stringBody quote (taken + 1) cs = .ok (more, total)) :
    stringBody quote taken (c :: cs) = .ok (c.toNat :: more, total) := by
  rw [stringBody]
  simp only [hn, hq, hb, h, if_false]
  rfl

/-- The characters of a text behind its opening quote, and the code units that they stand for. -/
inductive StringBody (quote : Char) : List Char → List Nat → Prop
  | close (hn : quote ≠ '\n') : StringBody quote [quote] []
  | escape {e w : List Char} {units more : List Nat} (hq : quote ≠ '\\') (he : IsEscape e units)
      (hw : StringBody quote w more) : StringBody quote ('\\' :: (e ++ w)) (units ++ more)
  | char {c : Char} {w : List Char} {more : List Nat} (hn : c ≠ '\n') (hq : c ≠ quote)
      (hb : c ≠ '\\') (hw : StringBody quote w more) : StringBody quote (c :: w) (c.toNat :: more)

theorem StringBody.read (h : StringBody quote w units) (taken : Nat) (rest : List Char) :
    stringBody quote taken (w ++ rest) = .ok (units, taken + w.length) := by
  induction h generalizing taken with
  | close hn =>
    rw [List.singleton_append, stringBody, if_neg hn, if_pos rfl]
    rfl
  | @escape e w units more hq he _ ih =>
    rw [List.cons_append, List.append_assoc]
    refine stringBody_backslash hq taken _ (he.read _) ?_
    rw [List.drop_left, ih]
    simp only [List.length_cons, List.length_append]
    congr 2
    omega
  | char hn hq hb _ ih =>
    refine stringBody_plain hn hq hb taken _ ((ih _).trans ?_)
    rw [List.length_cons, Nat.add_assoc, Nat.add_comm 1]

theorem exists_stringBody (h : stringBody quote taken cs = .ok (units, total)) :
    ∃ w rest, cs = w ++ rest ∧ total = taken + w.length ∧ StringBody quote w units := by
  fun_induction stringBody quote taken cs generalizing units total with
  | case1 => cases h
  | case2 => cases h
  | case3 taken rest hn =>
    cases h
    exact ⟨[quote], rest, rfl, rfl, .close hn⟩
  | case4 => cases h
  | case5 taken rest units n he hn hq ih =>
    obtain ⟨⟨more, total'⟩, hrest, h⟩ := bind_eq_ok.1 h
    cases h
    obtain ⟨e, tail, rfl, rfl, hesc⟩ := exists_escape he
    rw [List.drop_left] at hrest ih
    obtain ⟨w, rest, rfl, rfl, hw⟩ := ih hrest
    exact ⟨'\\' :: (e ++ w), rest, by simp, by simp; omega, .escape (Ne.symm hq) hesc hw⟩
  | case6 taken c rest hn hq hb ih =>
    obtain ⟨⟨more, total'⟩, hrest, h⟩ := bind_eq_ok.1 h
    cases h
    obtain ⟨w, rest, rfl, rfl, hw⟩ := ih hrest
    exact ⟨c :: w, rest, rfl, by simp only [List.length_cons]; omega, .char hn hq hb hw⟩

theorem StringBody.readString (h : StringBody quote w units) (c : Char) (rest : List Char) :
    readString quote (c :: (w ++ rest)) =
      .ok (String.ofList (ofUnits units), w.length + 1) := by
  rw [Token.readString, List.drop_succ_cons, List.drop_zero, h.read, Nat.add_comm 1]
  rfl

/-! ## Templates -/

/-- The characters of a substitution behind its opening brace, where `depth` braces are open. -/
def IsSubstitution (depth : Nat) (quote : Option Char) (w : List Char) : Prop :=
  ∀ taken rest, substitution depth quote taken (w ++ rest) = .ok (taken + w.length)

theorem IsSubstitution.cons {depth depth' : Nat} {quote quote' : Option Char} {v : List Char}
    (h : IsSubstitution depth' quote' w)
    (hstep : ∀ taken rest, substitution depth quote taken (v ++ rest) =
      substitution depth' quote' (taken + v.length) rest) :
    IsSubstitution depth quote (v ++ w) := by
  intro taken rest
  rw [List.append_assoc, hstep, h, List.length_append, Nat.add_assoc]

theorem substitution_quoted {depth : Nat} {q : Char} (hc : c ≠ '\\') :
    substitution depth (some q) taken (c :: rest) =
      substitution depth (if c = q then none else some q) (taken + 1) rest := by
  conv => lhs; unfold substitution
  simp only [if_neg hc]

theorem exists_substitution {depth : Nat} {quote : Option Char} {stop : Nat}
    (h : substitution depth quote taken cs = .ok stop) :
    ∃ w rest, cs = w ++ rest ∧ stop = taken + w.length ∧ IsSubstitution depth quote w := by
  -- one more character before what is already described
  have hcons : ∀ {depth depth' : Nat} {quote quote' : Option Char} {taken stop : Nat} {c : Char}
      {cs : List Char}, (∃ w rest, cs = w ++ rest ∧ stop = taken + 1 + w.length ∧
        IsSubstitution depth' quote' w) →
      (∀ taken rest, substitution depth quote taken (c :: rest) =
        substitution depth' quote' (taken + 1) rest) →
      ∃ w rest, c :: cs = w ++ rest ∧ stop = taken + w.length ∧ IsSubstitution depth quote w := by
    rintro depth depth' quote quote' taken stop c cs ⟨w, rest, rfl, rfl, hw⟩ hstep
    exact ⟨c :: w, rest, rfl, by simp only [List.length_cons]; omega,
      hw.cons (v := [c]) fun taken rest => hstep taken rest⟩
  fun_induction substitution depth quote taken cs with
  | case1 => cases h
  | case2 => cases h
  | case3 depth taken q d rest ih =>
    obtain ⟨w, rest, rfl, rfl, hw⟩ := ih h
    refine ⟨'\\' :: d :: w, rest, rfl, by simp only [List.length_cons]; omega,
      hw.cons (v := ['\\', d]) fun taken rest => ?_⟩
    show substitution depth (some q) taken ('\\' :: d :: rest) = _
    rw [substitution]
    simp
  | case4 depth taken c rest q hc ih => exact hcons (ih h) fun taken rest => substitution_quoted hc
  | case5 depth taken c rest hquote ih =>
    exact hcons (ih h) fun taken rest => by rw [substitution]; simp only [if_pos hquote]
  | case6 depth taken rest hquote ih =>
    exact hcons (ih h) fun taken rest => by rw [substitution]; simp only [if_neg hquote, if_true]
  | case7 depth taken rest hdepth hquote hopen =>
    cases h
    refine ⟨['}'], rest, rfl, rfl, fun taken rest => ?_⟩
    rw [List.singleton_append, substitution]
    simp only [if_neg hquote, if_neg hopen, if_true, if_pos hdepth]
    rfl
  | case8 depth taken rest hdepth hquote hopen ih =>
    exact hcons (ih h) fun taken rest => by
      rw [substitution]
      simp only [if_neg hquote, if_neg hopen, if_true, if_neg hdepth]
  | case9 depth taken c rest hquote hopen hclose ih =>
    exact hcons (ih h) fun taken rest => by
      rw [substitution]
      simp only [if_neg hquote, if_neg hopen, if_neg hclose]

theorem templateBody_backslash (taken : Nat) (cs : List Char) (he : escape cs = .ok (units, n))
    (h : templateBody (taken + 1 + n) (cs.drop n) = .ok (more, marked, total)) :
    templateBody taken ('\\' :: cs) = .ok (units ++ more, marked, total) := by
  rw [templateBody]
  simp only [he, h, show ('\\' : Char) ≠ '`' by decide, if_false, if_true]
  rfl

theorem templateBody_plain (taken : Nat) (c : Char) (cs : List Char) (hq : c ≠ '`') (hb : c ≠ '\\')
    (hd : c = '$' → cs.head? ≠ some '{')
    (h : templateBody (taken + 1) cs = .ok (more, marked, total)) :
    templateBody taken (c :: cs) = .ok (c.toNat :: more, marked, total) := by
  have hopen : (decide (c = '$') && decide (cs.head? = some '{')) = false := by
    by_cases hc : c = '$'
    · simp [hc, hd hc]
    · simp [hc]
  rw [templateBody]
  simp only [hq, hb, if_false, hopen, Bool.false_eq_true, h]
  rfl

/-- The characters of a template behind its opening quote, the code units that they stand for, and
whether there is a substitution among them. -/
inductive TemplateBody : List Char → List Nat → Bool → Prop
  | close : TemplateBody ['`'] [] false
  | escape {e w : List Char} {units more : List Nat} {marked : Bool} (he : IsEscape e units)
      (hw : TemplateBody w more marked) : TemplateBody ('\\' :: (e ++ w)) (units ++ more) marked
  | substitution {sub w : List Char} {more : List Nat} {marked : Bool}
      (hsub : IsSubstitution 1 none sub) (hw : TemplateBody w more marked) :
      TemplateBody ('$' :: '{' :: (sub ++ w)) (toUnits ('$' :: '{' :: sub) ++ more) true
  | char {c : Char} {w : List Char} {more : List Nat} {marked : Bool} (hq : c ≠ '`') (hb : c ≠ '\\')
      (hd : c = '$' → w.head? ≠ some '{') (hw : TemplateBody w more marked) :
      TemplateBody (c :: w) (c.toNat :: more) marked

theorem TemplateBody.length_pos (h : TemplateBody w units marked) : 0 < w.length := by
  cases h <;> simp

theorem TemplateBody.head?_append (h : TemplateBody w units marked) (rest : List Char) :
    (w ++ rest).head? = w.head? := by
  cases h <;> rfl

theorem TemplateBody.read (h : TemplateBody w units marked) (taken : Nat) (rest : List Char) :
    templateBody taken (w ++ rest) = .ok (units, marked, taken + w.length) := by
  induction h generalizing taken with
  | close =>
    rw [List.singleton_append, templateBody, if_pos rfl]
    rfl
  | @escape e w units more marked he _ ih =>
    rw [List.cons_append, List.append_assoc]
    refine templateBody_backslash taken _ (he.read _) ?_
    rw [List.drop_left, ih]
    simp only [List.length_cons, List.length_append]
    congr 3
    omega
  | @substitution sub w more marked hsub _ ih =>
    have hn : taken + 2 + sub.length - taken - 1 = sub.length + 1 := by omega
    rw [List.cons_append, List.cons_append, List.append_assoc, templateBody, if_neg (by decide),
      if_neg (by decide), if_pos (by simp)]
    refine bind_eq_ok.2 ⟨_, hsub (taken + 2) (w ++ rest), ?_⟩
    have hlen : taken + ('$' :: '{' :: (sub ++ w)).length = taken + 2 + sub.length + w.length := by
      simp only [List.length_cons, List.length_append]
      omega
    simp only [hn, List.drop_succ_cons, List.drop_left, List.take_succ_cons, List.take_left,
      ih, hlen]
    rfl
  | char hq hb hd hw ih =>
    refine templateBody_plain taken _ _ hq hb ?_ ((ih _).trans ?_)
    · exact fun hc => (hw.head?_append rest).symm ▸ hd hc
    · rw [List.length_cons, Nat.add_assoc, Nat.add_comm 1]

theorem exists_templateBody (h : templateBody taken cs = .ok (units, marked, total)) :
    ∃ w rest, cs = w ++ rest ∧ total = taken + w.length ∧ TemplateBody w units marked := by
  fun_induction templateBody taken cs generalizing units marked total with
  | case1 => cases h
  | case2 taken rest =>
    cases h
    exact ⟨['`'], rest, rfl, rfl, .close⟩
  | case3 => cases h
  | case4 taken rest units n he hq ih =>
    obtain ⟨⟨more, marked', total'⟩, hrest, h⟩ := bind_eq_ok.1 h
    cases h
    obtain ⟨e, tail, rfl, rfl, hesc⟩ := exists_escape he
    rw [List.drop_left] at hrest ih
    obtain ⟨w, rest, rfl, rfl, hw⟩ := ih hrest
    exact ⟨'\\' :: (e ++ w), rest, by simp, by simp; omega, .escape hesc hw⟩
  | case5 taken c rest hq hb hopen ih =>
    obtain ⟨stop, hstop, h⟩ := bind_eq_ok.1 h
    obtain ⟨⟨more, marked', total'⟩, hrest, h⟩ := bind_eq_ok.1 h
    cases h
    obtain ⟨rfl, d, rfl⟩ : c = '$' ∧ ∃ ds, rest = '{' :: ds := by
      simpa [List.head?_eq_some_iff] using hopen
    obtain ⟨sub, tail, rfl, rfl, hsub⟩ := exists_substitution hstop
    have hn : taken + 2 + sub.length - taken - 1 = sub.length + 1 := by omega
    obtain ⟨w, rest, htail, rfl, hw⟩ := ih _ hrest
    rw [hn, List.drop_succ_cons, List.drop_left] at htail
    subst htail
    refine ⟨'$' :: '{' :: (sub ++ w), rest, by simp, by simp; omega, ?_⟩
    rw [hn, List.take_succ_cons, List.take_left]
    exact .substitution hsub hw
  | case6 taken c rest hq hb hopen ih =>
    obtain ⟨⟨more, marked', total'⟩, hrest, h⟩ := bind_eq_ok.1 h
    cases h
    obtain ⟨w, rest, rfl, rfl, hw⟩ := ih hrest
    refine ⟨c :: w, rest, rfl, by simp only [List.length_cons]; omega, .char hq hb ?_ hw⟩
    rw [hw.head?_append] at hopen
    simpa using hopen

theorem TemplateBody.readTemplate (h : TemplateBody w units marked) (c : Char) (rest : List Char) :
    readTemplate (c :: (w ++ rest)) =
      .ok (String.ofList (ofUnits units), marked, w.length + 1) := by
  rw [Token.readTemplate, List.drop_succ_cons, List.drop_zero, h.read, Nat.add_comm 1]
  rfl

/-! ## Comments -/

theorem commentEnd?_cons (a : Char) (cs : List Char) :
    commentEnd? (a :: cs) =
      if a = '*' ∧ cs.head? = some '/' then some 2 else (commentEnd? cs).map (· + 1) := by
  cases cs <;> simp [commentEnd?]

/-- A comment ends where its closing mark first stands. -/
theorem commentEnd?_eq_some_iff :
    commentEnd? cs = some n ↔ ∃ w rest, cs = w ++ '*' :: '/' :: rest ∧ n = w.length + 2 ∧
      ¬ ['*', '/'] <:+: w ++ ['*'] := by
  induction cs generalizing n with
  | nil => simp [commentEnd?]
  | cons c cs ih =>
    have hhead : ∀ w rest : List Char, (w ++ '*' :: '/' :: rest).head? = (w ++ ['*']).head? := by
      intro w rest
      cases w <;> rfl
    rw [commentEnd?_cons]
    constructor
    · intro h
      split at h
      · next hend =>
        obtain ⟨rfl, hslash⟩ := hend
        obtain ⟨rest, rfl⟩ := List.head?_eq_some_iff.1 hslash
        cases h
        exact ⟨[], rest, rfl, rfl, fun hi => absurd hi.length_le (by simp)⟩
      · next hend =>
        obtain ⟨k, hk, rfl⟩ := Option.map_eq_some_iff.1 h
        obtain ⟨w, rest, rfl, rfl, hw⟩ := ih.1 hk
        refine ⟨c :: w, rest, rfl, rfl, ?_⟩
        rw [hhead] at hend
        rw [List.cons_append, List.infix_cons_iff, not_or, pair_prefix_iff]
        exact ⟨hend, hw⟩
    · rintro ⟨w, rest, hcs, rfl, hw⟩
      cases w with
      | nil =>
        obtain ⟨rfl, rfl⟩ := List.cons.inj hcs
        rfl
      | cons d w =>
        obtain ⟨rfl, rfl⟩ := List.cons.inj hcs
        rw [List.cons_append, List.infix_cons_iff, not_or, pair_prefix_iff] at hw
        rw [← hhead w rest] at hw
        exact (if_neg hw.1).trans (congrArg _ (ih.2 ⟨w, rest, rfl, rfl, hw.2⟩))

theorem commentEnd?_eq (h : ¬ ['*', '/'] <:+: w ++ ['*']) (rest : List Char) :
    commentEnd? (w ++ '*' :: '/' :: rest) = some (w.length + 2) :=
  commentEnd?_eq_some_iff.2 ⟨w, rest, rfl, rfl, h⟩

/-! ## Lexemes -/

/-- A literal begins with such a character. -/
def isQuote (c : Char) : Bool := c = '\'' || c = '"' || c = '`'

theorem isQuote_eq_false_iff : isQuote c = false ↔ c ≠ '"' ∧ c ≠ '\'' ∧ c ≠ '`' := by
  simp only [isQuote, Bool.or_eq_false_iff, decide_eq_false_iff_not]
  exact ⟨fun h => ⟨h.1.2, h.1.1, h.2⟩, fun h => ⟨⟨h.2.1, h.1⟩, h.2.2⟩⟩

/-- What the lexeme at the front of a text can be. -/
inductive LexemeAt (c : Char) : List Char → Lexeme → Nat → Prop
  | text {w t : List Char} {units : List Nat} (hc : c = '\'' ∨ c = '"')
      (hw : StringBody c w units) :
      LexemeAt c (w ++ t) (.text (String.ofList (ofUnits units))) (w.length + 1)
  | template {w t : List Char} {units : List Nat} {marked : Bool} (hc : c = '`')
      (hw : TemplateBody w units marked) :
      LexemeAt c (w ++ t) (.template (String.ofList (ofUnits units)) marked) (w.length + 1)
  | number {t : List Char} {value : Number} {n : Nat} (hc : isQuote c = false)
      (hstart : startsNumber c t = true) (hread : readNumber (c :: t) = .ok (value, n)) :
      LexemeAt c t (.number value) n
  | name {t : List Char} (hc : isQuote c = false) (hstart : startsNumber c t = false)
      (hname : isNameStart c = true) :
      LexemeAt c t (.identifier (String.ofList (c :: t.takeWhile isNamePart)))
        ((t.takeWhile isNamePart).length + 1)
  | punct {t : List Char} {mark : String} (hc : isQuote c = false)
      (hstart : startsNumber c t = false) (hname : isNameStart c = false)
      (hmark : punctAt? (c :: t) = some mark) : LexemeAt c t (.punct mark) mark.length

/-- A mark is the longest that the text begins with. -/
theorem punctAt?_cases {mark : String} (h : punctAt? (c :: rest) = some mark) :
    mark.toList <+: c :: rest ∧ (mark ∈ longMarks ∨ mark = String.singleton c ∧
      shortMarks.contains c = true ∧ ∀ long ∈ longMarks, ¬long.toList <+: c :: rest) := by
  unfold punctAt? at h
  split at h
  · next hlong =>
    cases h
    have hstart : startsWith mark (c :: rest) = true := by simpa using List.find?_some hlong
    exact ⟨startsWith_iff.1 hstart, .inl (List.mem_of_find?_eq_some hlong)⟩
  · next hlong =>
    dsimp only at h
    split at h
    · next hshort =>
      cases h
      refine ⟨by simp, .inr ⟨rfl, hshort, fun long hmem hstart => ?_⟩⟩
      exact List.find?_eq_none.1 hlong long hmem (startsWith_iff.2 hstart)
    · cases h

theorem lexemeAt_of_not_isQuote (hc : isQuote c = false) (rest : List Char) :
    lexemeAt c rest =
      if startsNumber c rest then
        match readNumber (c :: rest) with
        | .ok (value, taken) => .ok (.number value, taken)
        | .error fault => .error (fault, 0)
      else if isNameStart c then
        .ok (.identifier (String.ofList (c :: rest.takeWhile isNamePart)),
          (rest.takeWhile isNamePart).length + 1)
      else
        match punctAt? (c :: rest) with
        | some mark => .ok (.punct mark, mark.length)
        | none => .error (.unexpectedCharacter c, 0) := by
  simp only [isQuote, Bool.or_eq_false_iff, decide_eq_false_iff_not] at hc
  unfold lexemeAt
  simp only [hc.1.1, hc.1.2, hc.2, decide_false, Bool.or_self, Bool.false_eq_true, if_false]
  rfl

theorem LexemeAt.of_lexemeAt (h : lexemeAt c rest = .ok (l, n)) :
    LexemeAt c rest l n := by
  cases hc : isQuote c with
  | true =>
    unfold lexemeAt at h
    split at h
    · next hquote =>
      obtain ⟨⟨value, taken⟩, hread, h⟩ := bind_eq_ok.1 h
      cases h
      obtain ⟨⟨units, total⟩, hbody, hread⟩ := bind_eq_ok.1 hread
      cases hread
      obtain ⟨w, rest, hrest, rfl, hw⟩ := exists_stringBody hbody
      obtain rfl : _ = w ++ rest := hrest
      rw [Nat.add_comm 1]
      exact .text (by simpa using hquote) hw
    · next hquote =>
      have htick : c = '`' := by
        simp only [isQuote, Bool.or_eq_true, decide_eq_true_eq] at hc hquote
        exact hc.resolve_left hquote
      rw [if_pos htick] at h
      obtain ⟨⟨value, marked, taken⟩, hread, h⟩ := bind_eq_ok.1 h
      cases h
      obtain ⟨⟨units, marked', total⟩, hbody, hread⟩ := bind_eq_ok.1 hread
      cases hread
      obtain ⟨w, rest, hrest, rfl, hw⟩ := exists_templateBody hbody
      obtain rfl : _ = w ++ rest := hrest
      rw [Nat.add_comm 1]
      exact .template htick hw
  | false =>
    rw [lexemeAt_of_not_isQuote hc] at h
    split at h
    · next hstart =>
      split at h
      · next hread =>
        cases h
        exact .number hc hstart hread
      · cases h
    next hstart =>
    rw [Bool.not_eq_true] at hstart
    split at h
    · next hname =>
      cases h
      exact .name hc hstart hname
    next hname =>
    split at h
    · next hmark =>
      cases h
      exact .punct hc hstart (by simpa using hname) hmark
    · cases h

theorem LexemeAt.lexemeAt_eq (h : LexemeAt c rest l n) :
    lexemeAt c rest = .ok (l, n) := by
  cases h with
  | @text w rest units hc hw =>
    rw [lexemeAt, if_pos (by simpa using hc), hw.readString]
    rfl
  | @template w rest units marked hc hw =>
    rw [lexemeAt, if_neg (by simp [hc]), if_pos hc, hw.readTemplate]
    rfl
  | number hc hstart hread => rw [lexemeAt_of_not_isQuote hc, if_pos hstart, hread]
  | name hc hstart hname =>
    rw [lexemeAt_of_not_isQuote hc, if_neg (by simp [hstart]), if_pos hname]
  | punct hc hstart hname hmark =>
    rw [lexemeAt_of_not_isQuote hc, if_neg (by simp [hstart]), if_neg (by simp [hname]), hmark]

theorem lexemeAt_eq_ok_iff : lexemeAt c rest = .ok (l, n) ↔ LexemeAt c rest l n :=
  ⟨.of_lexemeAt, LexemeAt.lexemeAt_eq⟩

/-! ## Pieces -/

/-- A remark or a comment begins here. -/
def opensRemark (c : Char) (rest : List Char) : Bool :=
  c = '/' && (rest.head? = some '/' || rest.head? = some '*')

/-- A slash opens no comment here. -/
abbrev IsPlainSlash (c : Char) (rest : List Char) : Prop :=
  c = '/' → rest.head? ≠ some '/' ∧ rest.head? ≠ some '*'

theorem opensRemark_eq_false_iff :
    opensRemark c rest = false ↔ IsPlainSlash c rest := by
  by_cases hc : c = '/' <;> simp [opensRemark, IsPlainSlash, hc]

/-- What the piece at the front of a text can be. -/
inductive PieceAt : Char → List Char → Piece → Nat → Prop
  | blank {c : Char} {t : List Char} (hc : isBlank c = true) : PieceAt c t .blank 1
  | remark {w t : List Char} (hw : '\n' ∉ w) (hrest : ∀ d ∈ t.head?, d = '\n') :
      PieceAt '/' ('/' :: (w ++ t)) .remark (w.length + 2)
  | comment {w t : List Char} (hw : ¬ ['*', '/'] <:+: w ++ ['*']) :
      PieceAt '/' ('*' :: (w ++ '*' :: '/' :: t))
        (.comment (String.ofList ('/' :: '*' :: (w ++ ['*', '/'])))) (w.length + 4)
  | lexeme {c : Char} {t : List Char} {l : Lexeme} {n : Nat} (hc : isBlank c = false)
      (hopen : opensRemark c t = false) (hl : LexemeAt c t l n) :
      PieceAt c t (.lexeme l) n

/-- A remark ends with the line that it stands on. -/
theorem takeWhile_line (hw : '\n' ∉ w) (hrest : ∀ d ∈ rest.head?, d = '\n') :
    (w ++ rest).takeWhile (· ≠ '\n') = w := by
  have hall : ∀ d ∈ w, decide (d ≠ '\n') = true := by
    intro d hd
    refine decide_eq_true ?_
    rintro rfl
    exact hw hd
  rw [List.takeWhile_append_of_pos hall]
  cases rest with
  | nil => exact List.append_nil _
  | cons d rest => simp [hrest d rfl]

theorem PieceAt.of_pieceAt (h : pieceAt c rest = .ok (p, n)) : PieceAt c rest p n := by
  unfold pieceAt at h
  split at h
  · next hc =>
    cases h
    exact .blank hc
  next hc =>
  split at h
  · next hslash =>
    cases h
    obtain ⟨rfl, t, rfl⟩ : c = '/' ∧ ∃ t, rest = '/' :: t := by
      simpa [List.head?_eq_some_iff] using hslash
    -- the remark is cut off where its line ends
    have hremark := PieceAt.remark (w := t.takeWhile (· ≠ '\n')) (t := t.dropWhile (· ≠ '\n'))
      (fun hmem => by simpa using List.all_eq_true.1 List.all_takeWhile _ hmem) (fun d hd => by
        have hhead := List.head?_dropWhile_not (· ≠ '\n') t
        rw [Option.mem_def.1 hd] at hhead
        simpa using hhead)
    rw [List.takeWhile_append_dropWhile] at hremark
    exact hremark
  next hslash =>
  split at h
  · next hstar =>
    obtain ⟨rfl, t, rfl⟩ : c = '/' ∧ ∃ t, rest = '*' :: t := by
      simpa [List.head?_eq_some_iff] using hstar
    split at h
    · next k hk =>
      cases h
      obtain ⟨w, rest, ht, rfl, hw⟩ := commentEnd?_eq_some_iff.1 hk
      obtain rfl : t = w ++ '*' :: '/' :: rest := ht
      have htake : ('/' :: '*' :: (w ++ '*' :: '/' :: rest)).take (w.length + 2 + 2) =
          '/' :: '*' :: (w ++ ['*', '/']) := by
        rw [List.take_succ_cons, List.take_succ_cons, List.take_length_add_append]
        rfl
      rw [htake]
      exact .comment hw
    · cases h
  next hstar =>
  obtain ⟨⟨l, taken⟩, hl, h⟩ := bind_eq_ok.1 h
  cases h
  refine .lexeme (by simpa using hc) ?_ (lexemeAt_eq_ok_iff.1 hl)
  simp only [Bool.and_eq_true, decide_eq_true_eq, not_and] at hslash hstar
  by_cases hc' : c = '/'
  · simp [opensRemark, hslash hc', hstar hc']
  · simp [opensRemark, hc']

theorem PieceAt.pieceAt_eq (h : PieceAt c rest p n) : pieceAt c rest = .ok (p, n) := by
  cases h with
  | blank hc => rw [pieceAt, if_pos hc]
  | @remark w rest hw hrest =>
    have hline : ('/' :: '/' :: w ++ rest).takeWhile (· ≠ '\n') = '/' :: '/' :: w :=
      takeWhile_line (by simpa using hw) hrest
    rw [pieceAt, if_neg (by decide), if_pos (by simp), ← List.cons_append,
      ← List.cons_append, hline]
    rfl
  | @comment w rest hw =>
    have htake : (w ++ '*' :: '/' :: rest).take (w.length + 2) = w ++ ['*', '/'] := by
      rw [List.take_length_add_append]
      rfl
    rw [pieceAt, if_neg (by decide), if_neg (by simp), if_pos (by simp), List.drop_succ_cons,
      List.drop_zero, commentEnd?_eq hw]
    dsimp only
    rw [List.take_succ_cons, List.take_succ_cons, htake]
  | lexeme hc hopen hl =>
    rw [pieceAt, if_neg (by simp [hc]), if_neg, if_neg, lexemeAt_eq_ok_iff.2 hl]
    · rfl
    all_goals
      intro hslash
      simp [opensRemark] at hopen hslash
      simp [hslash] at hopen

theorem pieceAt_eq_ok_iff : pieceAt c rest = .ok (p, n) ↔ PieceAt c rest p n :=
  ⟨.of_pieceAt, PieceAt.pieceAt_eq⟩

end EventFlow.Token
