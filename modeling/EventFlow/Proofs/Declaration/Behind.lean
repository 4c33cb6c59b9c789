import EventFlow.Declaration.Message
import EventFlow.Proofs.Bind

/-! What stands behind a declaration is not read.

A reader that gives a result has not come to the end of the text, so it gives the same result when
other tokens `u` stand in place of the end `e`:

    field  source (a ++ [e]) = ok (f, b ++ [e]) → field  (source ++ more) (a ++ u) = ok (f, b ++ u)
    fields source (a ++ [e]) = ok fs            → fields (source ++ more) (a ++ u) = ok fs

Only an alias ends where its text ends; with a semicolon behind it, it does not depend on the end
either. -/

namespace EventFlow.Declaration

variable {e : Token} {a u rest : Tokens} {source more : List Char} {depth : Nat}
  {doc : Option String} {seen : List String}

/-! ## The first tokens -/

theorem isPunct_append (h : a ≠ []) (u : Tokens) (mark : String) :
    (a ++ u : Tokens).isPunct mark = Tokens.isPunct a mark := by
  cases a with
  | nil => exact absurd rfl h
  | cons t a => rfl

theorem next_append (h : a ≠ []) (u : Tokens) : (a ++ u : Tokens).next = a.next ++ u :=
  List.tail_append_of_ne_nil h

theorem ne_nil_of_isPunct (he : e.lexeme = .eof) {mark : String}
    (h : (a ++ [e] : Tokens).isPunct mark = true) : a ≠ [] := by
  rintro rfl
  simp [Tokens.isPunct, Token.isPunct, he] at h

/-! ## Brackets and types -/

theorem afterBrackets_append (he : e.lexeme = .eof) (u : Tokens)
    (h : afterBrackets depth (a ++ [e]) = .ok rest) :
    ∃ b, b <:+ a ∧ rest = b ++ [e] ∧ afterBrackets depth (a ++ u) = .ok (b ++ u) := by
  induction a generalizing depth with
  | nil =>
    rw [List.nil_append, afterBrackets, he] at h
    cases h
  | cons t a ih =>
    rw [List.cons_append] at h ⊢
    have hlater : ∀ {n}, afterBrackets n (a ++ [e]) = .ok rest →
        ∃ b, b <:+ t :: a ∧ rest = b ++ [e] ∧ afterBrackets n (a ++ u) = .ok (b ++ u) := by
      intro n hn
      obtain ⟨b, hb, hrest, hu⟩ := ih hn
      exact ⟨b, hb.trans (List.suffix_cons t a), hrest, hu⟩
    unfold afterBrackets at h ⊢
    split at h
    · cases h
    · split at h
      · next hopen =>
        rw [if_pos hopen]
        exact hlater h
      · next hopen =>
        rw [if_neg hopen]
        split at h
        · next hclose =>
          rw [if_pos hclose]
          split at h
          · next hone =>
            rw [if_pos hone]
            exact ⟨a, List.suffix_cons t a, (Except.ok.inj h).symm, rfl⟩
          · next hone =>
            rw [if_neg hone]
            exact hlater h
        · next hclose =>
          rw [if_neg hclose]
          exact hlater h
    · exact hlater h

theorem typeTokens_append (he : e.lexeme = .eof) (u : Tokens) {depth : Int} {type : Tokens}
    (h : typeTokens depth (a ++ [e]) = .ok (type, rest)) :
    ∃ b, b ≠ [] ∧ a = type ++ b ∧ rest = b ++ [e] ∧
      typeTokens depth (a ++ u) = .ok (type, b ++ u) := by
  induction a generalizing depth type with
  | nil =>
    rw [List.nil_append, typeTokens, he] at h
    cases h
  | cons t a ih =>
    rw [List.cons_append] at h ⊢
    have hlater : ∀ {n}, (typeTokens n (a ++ [e]) >>= fun p =>
          (.ok (t :: p.1, p.2) : Result (Tokens × Tokens))) = .ok (type, rest) →
        ∃ b, b ≠ [] ∧ t :: a = type ++ b ∧ rest = b ++ [e] ∧ (typeTokens n (a ++ u) >>= fun p =>
          (.ok (t :: p.1, p.2) : Result (Tokens × Tokens))) = .ok (type, b ++ u) := by
      intro n hn
      obtain ⟨⟨type', rest'⟩, htype, hn⟩ := bind_eq_ok.1 hn
      cases hn
      obtain ⟨b, hne, rfl, hrest, hu⟩ := ih htype
      refine ⟨b, hne, rfl, hrest, ?_⟩
      rw [hu]
      rfl
    unfold typeTokens at h ⊢
    split at h
    · cases h
    · split at h
      · next hend =>
        rw [if_pos hend]
        cases h
        exact ⟨t :: a, List.cons_ne_nil _ _, rfl, rfl, rfl⟩
      · next hend =>
        rw [if_neg hend]
        exact hlater h
    · exact hlater h

theorem typeText_append {ts : Tokens} (h : ∀ t ∈ ts, t.stop ≤ source.length) (more : List Char) :
    typeText (source ++ more) ts = typeText source ts := by
  unfold typeText
  cases hlast : ts.getLast? with
  | none =>
    cases ts.head? <;> rfl
  | some last =>
    cases ts.head? with
    | none => rfl
    | some first =>
      have hstop := h last (List.mem_of_getLast? hlast)
      dsimp only
      rw [List.drop_append, List.take_append_of_le_length]
      rw [List.length_drop]
      omega

/-! ## Fields -/

/-- What is left after an optional mark. -/
def afterMark (marks : List String) (a : Tokens) : Tokens :=
  if marks.any (a.isPunct ·) then a.next else a

theorem afterMark_suffix (marks : List String) (a : Tokens) : afterMark marks a <:+ a := by
  unfold afterMark
  split
  · exact List.tail_suffix a
  · exact List.suffix_refl a

theorem afterMark_append {marks : List String} (h : a ≠ []) (u : Tokens) :
    afterMark marks (a ++ u) = afterMark marks a ++ u := by
  unfold afterMark
  simp only [isPunct_append h, next_append h]
  split <;> rfl

theorem field_eq_ok_iff {t : Token} {f : Field} :
    field depth source seen (t :: a) = .ok (f, rest) ↔
      ∃ name, fieldName? t = some name ∧ seen.contains name = false ∧
        (afterMark ["?"] a).isPunct ":" = true ∧
        ∃ type behind, typeTokens 0 (afterMark ["?"] a).next = .ok (type, behind) ∧
          (typeText source type).isEmpty = false ∧
          ∃ description value, fieldDoc depth name t = .ok (description, value) ∧
            f = ⟨name, typeText source type, !a.isPunct "?", description, value⟩ ∧
            rest = afterMark [";", ","] behind := by
  have hmark : (if (!Tokens.isPunct a "?") = true then a else Tokens.next a) =
      afterMark ["?"] a := by
    unfold afterMark
    cases h : Tokens.isPunct a "?" <;> simp [h]
  have hends : ∀ b : Tokens, (if (b.isPunct ";" || b.isPunct ",") = true then b.next else b) =
      afterMark [";", ","] b := by
    intro b
    simp [afterMark]
  cases hname : fieldName? t with
  | none => simp [field, hname, Tokens.failCiting, Tokens.fail]
  | some name =>
    cases hseen : seen.contains name with
    | true => simp [field, hname, hseen, Tokens.fail, -List.contains_eq_mem]
    | false =>
      simp only [field, List.head?_cons, Option.bind_some, hname, Option.map_some, hseen,
        Bool.false_eq_true, if_false, show Tokens.next (t :: a) = a from rfl, hmark, hends]
      constructor
      · intro h
        split at h
        · cases h
        · next hcolon =>
          obtain ⟨⟨type, behind⟩, htype, h⟩ := bind_eq_ok.1 h
          split at h
          · cases h
          · next hne =>
            obtain ⟨⟨description, value⟩, hdoc, h⟩ := bind_eq_ok.1 h
            cases h
            exact ⟨name, rfl, hseen, by simpa using hcolon, type, behind, htype, by simpa using hne,
              description, value, hdoc, rfl, rfl⟩
      · rintro ⟨_, ⟨⟩, -, hcolon, type, behind, htype, hne, description, value, hdoc, rfl, rfl⟩
        rw [hcolon, if_neg (by decide), htype]
        show (if _ then _ else _) = _
        rw [hne, if_neg (by decide), hdoc]
        rfl

theorem field_append (he : e.lexeme = .eof) (u : Tokens) (more : List Char) {f : Field}
    (hstop : ∀ t ∈ a, t.stop ≤ source.length)
    (h : field depth source seen (a ++ [e]) = .ok (f, rest)) :
    ∃ b, b <:+ a ∧ rest = b ++ [e] ∧
      field depth (source ++ more) seen (a ++ u) = .ok (f, b ++ u) := by
  cases a with
  | nil => simp [field, fieldName?, he, Tokens.failCiting, Tokens.fail] at h
  | cons t a =>
    rw [List.cons_append, field_eq_ok_iff] at h
    obtain ⟨name, hname, hseen, hcolon, type, behind, htype, hne, description, value, hdoc, rfl,
      rfl⟩ := h
    have hane : a ≠ [] := by
      rintro rfl
      simp [afterMark, Tokens.isPunct, Token.isPunct, he] at hcolon
    rw [afterMark_append hane] at hcolon htype
    have hmark := ne_nil_of_isPunct he hcolon
    rw [next_append hmark] at htype
    obtain ⟨b, hb, hsplit, rfl, hu⟩ := typeTokens_append he u htype
    have hsuffix : b <:+ a := by
      have htail : (afterMark ["?"] a).next <:+ afterMark ["?"] a := List.tail_suffix _
      exact ((hsplit ▸ List.suffix_append type b).trans htail).trans (afterMark_suffix _ a)
    have hsame : typeText (source ++ more) type = typeText source type := by
      refine typeText_append (fun x hx => hstop x (List.mem_cons_of_mem _ ?_)) more
      have hmem : x ∈ (afterMark ["?"] a).next := hsplit ▸ List.mem_append_left b hx
      exact (afterMark_suffix _ a).subset ((List.tail_suffix _).subset hmem)
    refine ⟨afterMark [";", ","] b, ?_, afterMark_append hb _, ?_⟩
    · exact ((afterMark_suffix _ b).trans hsuffix).trans (List.suffix_cons t a)
    · rw [List.cons_append, field_eq_ok_iff]
      refine ⟨name, hname, hseen, ?_, type, b ++ u, ?_, by rwa [hsame], description, value, hdoc,
        ?_, (afterMark_append hb u).symm⟩
      · rwa [afterMark_append hane, isPunct_append hmark, ← isPunct_append hmark [e]]
      · rwa [afterMark_append hane, next_append hmark]
      · rw [hsame, isPunct_append hane, isPunct_append hane]

theorem fields_append (he : e.lexeme = .eof) (u : Tokens) (more : List Char) {fuel fuel' : Nat}
    (hfuel : fuel ≤ fuel') {fs : List Field} (hstop : ∀ t ∈ a, t.stop ≤ source.length)
    (h : fields depth source fuel seen (a ++ [e]) = .ok fs) :
    fields depth (source ++ more) fuel' seen (a ++ u) = .ok fs := by
  induction fuel generalizing fuel' seen a fs with
  | zero => cases h
  | succ fuel ih =>
    obtain ⟨fuel', rfl⟩ : ∃ n, fuel' = n + 1 := ⟨fuel' - 1, by omega⟩
    unfold fields at h ⊢
    split at h
    · next hend =>
      have hne := ne_nil_of_isPunct he hend
      rw [isPunct_append hne] at hend
      rw [isPunct_append hne, if_pos hend]
      exact h
    · next hend =>
      obtain ⟨⟨first, rest⟩, hfirst, h⟩ := bind_eq_ok.1 h
      obtain ⟨others, hothers, h⟩ := bind_eq_ok.1 h
      cases h
      obtain ⟨b, hb, rfl, hu⟩ := field_append he u more hstop hfirst
      have hne : a ≠ [] := by
        rintro rfl
        simp [field, fieldName?, he, Tokens.failCiting, Tokens.fail] at hfirst
      have hmore := ih (Nat.le_of_succ_le_succ hfuel) (fun t ht => hstop t (hb.subset ht)) hothers
      rw [isPunct_append hne] at hend
      rw [isPunct_append hne, if_neg hend, hu]
      show (do
        let more ← fields depth (source ++ more) fuel' (first.name :: seen) (b ++ u)
        return first :: more) = _
      rw [hmore]
      rfl

/-! ## Messages -/

theorem message_append (he : e.lexeme = .eof) (hu : u ≠ []) (more : List Char) {type : String}
    {kind : MessageKind} {m : Message} (hstop : ∀ t ∈ a, t.stop ≤ source.length)
    (h : message depth source doc type kind (a ++ [e]) = .ok m) :
    message depth (source ++ more) doc type kind (a ++ u) = .ok m := by
  have hlength : (a ++ [e]).length ≤ (a ++ u).length := by
    have := List.length_pos_iff.2 hu
    simp only [List.length_append, List.length_singleton]
    omega
  cases a with
  | nil => simp [message, Token.text?, he, Tokens.fail] at h
  | cons t a =>
    cases htext : t.text? with
    | none => simp [message, htext, Tokens.fail] at h
    | some name =>
      simp only [message, List.cons_append, List.head?_cons, Option.bind_some, htext,
        Option.map_some, show ∀ b, Tokens.next (t :: b) = b from fun _ => rfl] at h ⊢
      split at h
      · cases h
      · next hcomma =>
        have ha := ne_nil_of_isPunct he (by simpa using hcomma)
        rw [isPunct_append ha] at hcomma ⊢
        rw [next_append ha] at h ⊢
        rw [if_neg hcomma]
        split at h
        · cases h
        · next hbrace =>
          have hb := ne_nil_of_isPunct he (by simpa using hbrace)
          rw [isPunct_append hb] at hbrace ⊢
          rw [next_append hb] at h ⊢
          rw [if_neg hbrace]
          obtain ⟨all, hall, h⟩ := bind_eq_ok.1 h
          have hstops : ∀ t ∈ Tokens.next (Tokens.next a), t.stop ≤ source.length := fun x hx =>
            hstop x (List.mem_cons_of_mem _ ((List.tail_suffix _).subset
              ((List.tail_suffix _).subset hx)))
          have hmore := fields_append he u more hlength hstops hall
          rw [List.cons_append] at hmore
          rw [hmore]
          exact h

theorem isPunct_of_getLast?_suffix {b : Tokens} (hlast : ∃ t ∈ a.getLast?, t.isPunct ";" = true)
    (hb : b <:+ a) (hne : b ≠ []) : ∃ t ∈ b.getLast?, t.isPunct ";" = true := by
  obtain ⟨c, rfl⟩ := hb
  rwa [List.getLast?_append, List.getLast?_eq_some_getLast hne, Option.some_or,
    ← List.getLast?_eq_some_getLast hne] at hlast

theorem meaningOf_append (he : e.lexeme = .eof) (hu : u ≠ []) (more : List Char) {type : String}
    {m : Meaning} (hlast : ∃ t ∈ a.getLast?, t.isPunct ";" = true)
    (hstop : ∀ t ∈ a, t.stop ≤ source.length)
    (h : meaningOf depth source doc type (a ++ [e]) = .ok m) :
    meaningOf depth (source ++ more) doc type (a ++ u) = .ok m := by
  cases a with
  | nil => simp at hlast
  | cons t a =>
    cases hname : t.name? with
    | none =>
      simp only [meaningOf, List.cons_append, List.head?_cons, Option.bind_some, hname] at h ⊢
      exact h
    | some head =>
      have ha : a ≠ [] := by
        rintro rfl
        have hmark : t.lexeme = .punct ";" := by simpa [Token.isPunct] using hlast
        simp [Token.name?, hmark] at hname
      have hhead : ∀ v, (a ++ v).head? = a.head? := fun v => by
        cases a with
        | nil => exact absurd rfl ha
        | cons => rfl
      simp only [meaningOf, List.cons_append, List.head?_cons, Option.bind_some, hname,
        show ∀ b, Tokens.next (t :: b) = b from fun _ => rfl, isPunct_append ha, next_append ha,
        hhead] at h ⊢
      split at h
      · obtain ⟨n, hn, h⟩ := bind_eq_ok.1 h
        have hstops : ∀ t ∈ Tokens.next a, t.stop ≤ source.length := fun x hx =>
          hstop x (List.mem_cons_of_mem _ ((List.tail_suffix _).subset hx))
        rw [message_append he hu more hstops hn]
        exact h
      · exact h

/-- What counts stands after the equals sign, and that is not the last token. -/
theorem afterEquals_append (he : e.lexeme = .eof) (hu : u ≠ []) (more : List Char) {type : String}
    {m : Meaning} (hlast : ∃ t ∈ a.getLast?, t.isPunct ";" = true)
    (hstop : ∀ t ∈ a, t.stop ≤ source.length) {c : Tokens} (hc : c <:+ a)
    (h : (if Tokens.isPunct (c ++ [e]) "=" then
      meaningOf depth source doc type (Tokens.next (c ++ [e]))
      else Tokens.fail (c ++ [e]) (.expectedEquals type)) = .ok m) :
    (if Tokens.isPunct (c ++ u) "=" then
      meaningOf depth (source ++ more) doc type (Tokens.next (c ++ u))
      else Tokens.fail (c ++ u) (.expectedEquals type)) = .ok m := by
  split at h
  · next hequals =>
    have hne := ne_nil_of_isPunct he hequals
    rw [isPunct_append hne] at hequals
    rw [next_append hne] at h
    rw [isPunct_append hne, if_pos hequals, next_append hne]
    have hnext : c.next <:+ a := (List.tail_suffix c).trans hc
    refine meaningOf_append he hu more (isPunct_of_getLast?_suffix hlast hnext ?_)
      (fun t ht => hstop t (hnext.subset ht)) h
    intro hnil
    obtain ⟨t, rfl⟩ : ∃ t, c = [t] := by
      cases c with
      | nil => exact absurd rfl hne
      | cons t c => exact ⟨t, congrArg (t :: ·) hnil⟩
    obtain ⟨t', ht', hmark⟩ := isPunct_of_getLast?_suffix hlast hc hne
    obtain rfl : t = t' := by simpa using ht'
    simp only [Tokens.isPunct, List.head?_cons, Option.any_some, Token.isPunct,
      beq_iff_eq] at hequals hmark
    exact absurd (hequals.symm.trans hmark) (by decide)
  · cases h

/-- With a semicolon behind it, a declaration says the same whatever follows. -/
theorem meaning_append (he : e.lexeme = .eof) (hu : u ≠ []) (more : List Char) {m : Meaning}
    (hlast : ∃ t ∈ a.getLast?, t.isPunct ";" = true) (hstop : ∀ t ∈ a, t.stop ≤ source.length)
    (h : meaning depth source doc (a ++ [e]) = .ok m) :
    meaning depth (source ++ more) doc (a ++ u) = .ok m := by
  have ha : a ≠ [] := by
    rintro rfl
    simp at hlast
  obtain ⟨b, hb, hexport⟩ : ∃ b : Tokens, b <:+ a ∧ ∀ v, (if Tokens.isName (a ++ v) "export" then
      Tokens.next (a ++ v) else a ++ v) = b ++ v := by
    have hname : ∀ v, Tokens.isName (a ++ v) "export" = Tokens.isName a "export" := fun v => by
      cases a with
      | nil => exact absurd rfl ha
      | cons => rfl
    simp only [hname, next_append ha]
    split
    · exact ⟨a.next, List.tail_suffix a, fun v => rfl⟩
    · exact ⟨a, List.suffix_refl a, fun v => rfl⟩
  simp only [meaning, hexport] at h ⊢
  -- the keyword, the name and what follows them stand before the end
  match b with
  | [] => simp [Tokens.next, Tokens.isPunct, Tokens.fail] at h
  | [_] => simp [Tokens.next, Tokens.isPunct, Tokens.fail] at h
  | [_, _] => simp [Tokens.next, Tokens.isPunct, Token.isPunct, he, Tokens.fail] at h
  | x :: y :: z :: c =>
    have hc : z :: c <:+ a := (List.suffix_append [x, y] (z :: c)).trans hb
    have hskip : ∀ v, Tokens.next (Tokens.next (x :: y :: z :: c ++ v)) = z :: c ++ v :=
      fun v => rfl
    have hcited : ∀ v, Tokens.cited (Tokens.next (x :: y :: z :: c ++ v)) = y.lexeme.cited :=
      fun v => rfl
    simp only [hskip, hcited, isPunct_append (List.cons_ne_nil z c)] at h ⊢
    split at h
    · next hangle =>
      obtain ⟨ts, hts, h⟩ := bind_eq_ok.1 h
      obtain ⟨d, hd, rfl, hd'⟩ := afterBrackets_append he u hts
      rw [if_pos hangle, hd']
      exact afterEquals_append he hu more hlast hstop (hd.trans hc) h
    · next hangle =>
      rw [if_neg hangle]
      exact afterEquals_append he hu more hlast hstop hc h

end EventFlow.Declaration
