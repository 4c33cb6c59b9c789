import EventFlow.Proofs.Program.Reading

/-! How the grammar reads the statements of a file: imports, the declaration of the builders, and
one statement after the other up to the end of the text. -/

namespace EventFlow.Program

open Token (listed)

variable {α : Type} {t : Lexed} {us : Stream} {fuel : Nat} (typeOnly : Bool) (open_ : List String)

/-! ## Imports -/

/-- A plain specifier of the given name. -/
def IsSpecifier (s : Specifier) (name : String) : Prop :=
  s.name = name ∧ s.renamed = none ∧ s.typeOnly = typeOnly

/-- A name that a mark follows is a specifier of its own, whatever the name is. -/
theorem specifier_reads {u : Lexed} (us : Stream) {name mark : String}
    (ht : t.token.lexeme = .identifier name) (hu : u.token.lexeme = .punct mark) :
    ∃ s, specifier typeOnly (t :: u :: us) = .ok (s, u :: us) ∧ IsSpecifier typeOnly s name := by
  refine ⟨⟨t.token.line, name, none, typeOnly⟩, ?_, rfl, rfl, rfl⟩
  have hmarked : (Stream.isName (t :: u :: us) "type" && (Stream.name? (u :: us)).isSome &&
      !Stream.isName (u :: us) "as") = false := by
    simp [Stream.name?, Token.name?, hu]
  have hname : expectName (t :: u :: us) = .ok (name, u :: us) := by
    simp [expectName, Stream.name?, Token.name?, ht, next_cons]
  unfold specifier
  simp only [next_cons, hmarked, Bool.false_eq_true, if_false, hname]
  show (if Stream.isName (u :: us) "as" then _ else _) = _
  rw [if_neg (by simp [isName_cons, hu]), Bool.or_false]
  rfl

/-- Names with commas between them, up to a closing brace. -/
theorem separated_names {item : Reader α} {P : String → α → Prop} (fault : Fault)
    (names : List String)
    (hitem : ∀ {t u : Lexed} (us : Stream) {name mark : String},
      t.token.lexeme = .identifier name → u.token.lexeme = .punct mark → mark ≠ ":" →
        ∃ a, item (t :: u :: us) = .ok (a, u :: us) ∧ P name a) (rest : Stream)
    (hus : us.lexemes = listed (names.map fun n => [.identifier n]))
    (ht : t.token.lexeme = .punct r"}") (hfuel : us.length < fuel) :
    ∃ as, separated item r"}" fault fuel (us ++ t :: rest) = .ok (as, rest) ∧
      List.Forall₂ (fun a name => P name a) as names := by
  rw [← List.append_nil (listed _)] at hus
  have hlen := length_le_of_listed (by simp) hus
  refine separated_reads (by decide) fault (List.forall₂_map_left_iff.2 (List.forall₂_same.2
    fun name _ va u vb hva hu => ?_)) (Or.inl rfl) rest hus ht (by omega)
  obtain ⟨n, rfl, hn⟩ := lexemes_eq_one hva
  refine ⟨by simp [isPunct_cons, hn], ?_⟩
  rcases hu with hu | hu <;> exact hitem vb hn hu (by decide)

theorem specifiers_reads (names : List String) (rest : Stream)
    (hus : us.lexemes = listed (names.map fun n => [.identifier n]))
    (ht : t.token.lexeme = .punct r"}") (hfuel : us.length < fuel) :
    ∃ ss, specifiers typeOnly fuel (us ++ t :: rest) = .ok (ss, rest) ∧
      List.Forall₂ (IsSpecifier typeOnly) ss names := by
  rw [specifiers_eq]
  exact separated_names .importList names (fun us _ _ ht hu _ => specifier_reads typeOnly us ht hu)
    rest hus ht hfuel

/-- The lexemes of a list of names in braces, and of the module that they come from. -/
def namedLexemes (names : List String) (module : String) : List Lexeme :=
  .punct r"{" :: listed (names.map fun n => [.identifier n]) ++
    [.punct r"}", .identifier "from", .text module]

/-- The lexemes of an import of some names. -/
def importLexemes (names : List String) (module : String) : List Lexeme :=
  .identifier "import" :: (if typeOnly then [.identifier "type"] else []) ++
    (namedLexemes names module ++ [.punct ";"])

/-- The names in braces, after the keyword. -/
theorem named_reads (names : List String) (module : String) (rest : Stream)
    (hus : us.lexemes = namedLexemes names module) :
    ∃ ss vs, defaultName (us ++ rest) = .ok (none, us ++ rest) ∧
      named typeOnly (us ++ rest) = .ok ((none, ss), vs) ∧ vs.isName "from" = true ∧
      expectString vs.next = .ok (module, rest) ∧ List.Forall₂ (IsSpecifier typeOnly) ss names := by
  obtain ⟨o, us, rfl, ho, hus⟩ := lexemes_eq_cons hus
  obtain ⟨va, vb, rfl, hva, hvb⟩ := lexemes_eq_append hus
  obtain ⟨c, vb, rfl, hc, hvb⟩ := lexemes_eq_cons hvb
  obtain ⟨f, vb, rfl, hf, hvb⟩ := lexemes_eq_cons hvb
  obtain ⟨x, rfl, hx⟩ := lexemes_eq_one hvb
  have hlist : o :: (va ++ [c, f, x]) ++ rest = o :: (va ++ c :: f :: x :: rest) := by simp
  have hlen : va.length < (o :: (va ++ c :: f :: x :: rest)).length := by
    simp only [List.length_append, List.length_cons]
    omega
  obtain ⟨ss, hss, hP⟩ := specifiers_reads typeOnly names (f :: x :: rest) hva hc hlen
  refine ⟨ss, f :: x :: rest, ?_, ?_, ?_, ?_, hP⟩
  · simp [defaultName, Stream.name?, Token.name?, ho]
  · rw [hlist]
    unfold named
    rw [if_neg (by simp [isPunct_cons, ho]), if_pos (by simp [isPunct_cons, ho]), next_cons, hss]
    rfl
  · simp [isName_cons, hf]
  · simp [expectString, next_cons, Stream.text?, Token.text?, hx]

theorem importContent_reads (names : List String) (module : String) {vk : Stream} (rest : Stream)
    (hvk : vk.lexemes = if typeOnly then [.identifier "type"] else [])
    (hus : us.lexemes = namedLexemes names module) :
    ∃ ss, importContent (vk ++ (us ++ rest)) = .ok (⟨module, ss, none, none, typeOnly⟩, rest) ∧
      List.Forall₂ (IsSpecifier typeOnly) ss names := by
  obtain ⟨ss, vs, hdefault, hnamed, hfrom, hmodule, hP⟩ :=
    named_reads typeOnly names module rest hus
  obtain ⟨o, us, rfl, ho, -⟩ := lexemes_eq_cons hus
  refine ⟨ss, ?_, hP⟩
  unfold importContent
  cases typeOnly with
  | true =>
    obtain ⟨k, rfl, hk⟩ := lexemes_eq_one hvk
    have htext : Stream.text? ([k] ++ (o :: us ++ rest)) = none := by
      simp [Stream.text?, Token.text?, hk]
    have htype : (Stream.isName ([k] ++ (o :: us ++ rest)) "type" &&
        !Stream.isName (Stream.next ([k] ++ (o :: us ++ rest))) "from") = true := by
      simp [isName_cons, next_cons, hk, ho]
    rw [htext]
    dsimp only
    rw [htype, if_pos rfl]
    show (defaultName (o :: us ++ rest) >>= _) = _
    rw [hdefault]
    show (named true (o :: us ++ rest) >>= _) = _
    rw [hnamed]
    show (if Stream.isName vs "from" then _ else _) = _
    rw [if_pos hfrom, hmodule]
    rfl
  | false =>
    obtain rfl : vk = [] := List.map_eq_nil_iff.1 hvk
    have htext : Stream.text? ([] ++ (o :: us ++ rest)) = none := by
      simp [Stream.text?, Token.text?, ho]
    have htype : (Stream.isName ([] ++ (o :: us ++ rest)) "type" &&
        !Stream.isName (Stream.next ([] ++ (o :: us ++ rest))) "from") = false := by
      simp [isName_cons, ho]
    rw [htext]
    dsimp only
    rw [htype, if_neg (by decide)]
    show (defaultName (o :: us ++ rest) >>= _) = _
    rw [hdefault]
    show (named false (o :: us ++ rest) >>= _) = _
    rw [hnamed]
    show (if Stream.isName vs "from" then _ else _) = _
    rw [if_pos hfrom, hmodule]
    rfl

/-- The keyword is no call, since a brace or the word for types follows it. -/
theorem isPunct_import (names : List String) (module : String) {vk : Stream} (rest : Stream)
    (hvk : vk.lexemes = if typeOnly then [.identifier "type"] else [])
    (hus : us.lexemes = namedLexemes names module) :
    Stream.isPunct (vk ++ (us ++ rest)) "(" = false := by
  obtain ⟨o, us, rfl, ho, -⟩ := lexemes_eq_cons hus
  cases typeOnly with
  | true =>
    obtain ⟨k, vk, rfl, hk, -⟩ := lexemes_eq_cons hvk
    simp [isPunct_cons, hk]
  | false =>
    obtain rfl : vk = [] := List.map_eq_nil_iff.1 hvk
    simp [isPunct_cons, ho]

theorem statement_import {g : Grammar} {rest : Stream} {content : Import}
    (ht : t.token.lexeme = .identifier "import") (hopen : us.isPunct "(" = false)
    (hcontent : importContent us = .ok (content, rest)) :
    statement g (t :: us) = (endStatement rest).map fun r =>
      (some (.imports t.token.line content t.token.doc), r.2) := by
  unfold statement
  rw [if_neg (by simp [isPunct_cons, ht]), if_pos (by simp [isName_cons, ht, next_cons, hopen]),
    next_cons, hcontent]
  show (endStatement rest >>= _) = _
  cases endStatement rest <;> rfl

/-- An import of some names, of types or of values. -/
theorem ReadsStatement.imports (d : Nat) (typeOnly : Bool) (names : List String)
    (module : String) :
    ReadsStatement d (importLexemes typeOnly names module) fun doc s =>
      ∃ line ss, s = .imports line ⟨module, ss, none, none, typeOnly⟩ doc ∧
        List.Forall₂ (IsSpecifier typeOnly) ss names where
  starts := ⟨_, rfl, rfl⟩
  reads source us rest hus := by
    obtain ⟨t, us, rfl, ht, hus⟩ := lexemes_eq_cons hus
    obtain ⟨vk, vb, rfl, hvk, hvb⟩ := lexemes_eq_append hus
    obtain ⟨va, q, rfl, hva, hq⟩ := lexemes_eq_snoc hvb
    obtain ⟨ss, hcontent, hP⟩ := importContent_reads typeOnly names module (q :: rest) hvk hva
    have hopen := isPunct_import typeOnly names module (q :: rest) hvk hva
    have hlist : t :: (vk ++ (va ++ [q])) ++ rest = t :: (vk ++ (va ++ q :: rest)) := by simp
    refine ⟨.imports t.token.line ⟨module, ss, none, none, typeOnly⟩ t.token.doc, ?_, _, ss,
      rfl, hP⟩
    rw [hlist, statement_import ht hopen hcontent, endStatement_cons hq]
    rfl

/-! ## Type arguments -/

/-- Lexemes between which no bracket of `open_` is closed. -/
def Passes (ls : List Lexeme) : Prop :=
  ∀ us rest : Stream, us.lexemes = ls →
    closing? open_ (us ++ rest) = (closing? open_ rest).map (· + us.length)

theorem Passes.nil : Passes open_ [] := by
  intro us rest hus
  obtain rfl : us = [] := List.map_eq_nil_iff.1 hus
  simp

theorem Passes.append {open_ : List String} {la lb : List Lexeme} (ha : Passes open_ la)
    (hb : Passes open_ lb) : Passes open_ (la ++ lb) := by
  intro us rest hus
  obtain ⟨va, vb, rfl, hva, hvb⟩ := lexemes_eq_append hus
  rw [List.append_assoc, ha va _ hva, hb vb rest hvb, Option.map_map, List.length_append]
  congr 1
  funext n
  simp only [Function.comp]
  omega

theorem Passes.identifier (name : String) :
    Passes open_ [.identifier name] := by
  intro us rest hus
  obtain ⟨t, rfl, ht⟩ := lexemes_eq_one hus
  simp [closing?, ht]

theorem Passes.text (s : String) : Passes open_ [.text s] := by
  intro us rest hus
  obtain ⟨t, rfl, ht⟩ := lexemes_eq_one hus
  simp [closing?, ht]

/-- A mark that is no bracket. -/
theorem Passes.mark {top : String} {outer : List String} {mark : String}
    (hopen : closer? mark = none) (hclose : [")", "]", r"}"].contains mark = false)
    (htop : mark ≠ top) : Passes (top :: outer) [.punct mark] := by
  intro us rest hus
  obtain ⟨t, rfl, ht⟩ := lexemes_eq_one hus
  simp only [List.cons_append, List.nil_append, closing?, ht, hopen]
  simp only [if_neg htop, hclose, Bool.and_false, Bool.false_eq_true, if_false]
  rfl

/-- What stands between two brackets passes, brackets included. -/
theorem Passes.group {top : String} {outer : List String} {opening close : String}
    {ls : List Lexeme} (hopen : closer? opening = some close) (hangle : opening ≠ "<")
    (hnone : closer? close = none) (h : Passes (close :: top :: outer) ls) :
    Passes (top :: outer) (.punct opening :: ls ++ [.punct close]) := by
  intro us rest hus
  obtain ⟨t, us, rfl, ht, hus⟩ := lexemes_eq_cons hus
  obtain ⟨va, q, rfl, hva, hq⟩ := lexemes_eq_snoc hus
  have hlist : t :: (va ++ [q]) ++ rest = t :: (va ++ q :: rest) := by simp
  have hlast : closing? (close :: top :: outer) (q :: rest) =
      (closing? (top :: outer) rest).map (· + 1) := by
    simp [closing?, hq, hnone]
  have hinner := h va (q :: rest) hva
  rw [hlast, Option.map_map] at hinner
  rw [hlist]
  simp only [closing?, ht, hopen]
  rw [if_pos (by simp [hangle]), hinner, Option.map_map]
  congr 1
  funext n
  simp only [Function.comp, List.length_cons, List.length_append, List.length_nil]
  omega

theorem arguments_nil (g : Grammar) {p q : Lexed} (rest : Stream)
    (hp : p.token.lexeme = .punct "(") (hq : q.token.lexeme = .punct ")") :
    arguments g (p :: q :: rest) = .ok ([], rest) := by
  have hopen : expectPunct "(" (p :: q :: rest) = .ok ((), q :: rest) := by
    simp [expectPunct, isPunct_cons, hp, next_cons]
  unfold arguments
  rw [hopen]
  show elements g ")" .argumentList ((q :: rest).length + 1) (q :: rest) = _
  rw [elements, if_pos (by simp [isPunct_cons, hq]), next_cons]

theorem suffixes_typed {g : Grammar} {e : Expr} {n : Nat} {p : Lexed} {vs rest : Stream}
    {es : List Expr} (ht : t.token.lexeme = .punct "<") (hclosing : closingOf? "<" us = some n)
    (hskip : us.skip (n + 1) = p :: vs) (hp : p.token.lexeme = .punct "(")
    (hes : arguments g (p :: vs) = .ok (es, rest)) :
    suffixes g e (fuel + 1) (t :: us) =
      suffixes g (.call t.token.line e es (some (textUpTo g us n))) fuel rest := by
  simp only [suffixes, List.head?_cons, ht, next_cons, hclosing, hskip]
  rw [if_neg (by decide), if_neg (by decide), if_pos trivial, if_pos (by simp [isPunct_cons, hp]),
    hes]
  rfl

/-- A method call with type arguments and no others. -/
theorem ReadsLinks.typed (d : Nat) (method : String) {types : List Lexeme}
    (htypes : Passes [">"] types) :
    ReadsLinks (d + 1)
      (.punct "." :: .identifier method :: .punct "<" :: types ++
        [Lexeme.punct ">", .punct "(", .punct ")"]) fun _ => True := by
  intro source e us rest fuel hus
  obtain ⟨t, us, rfl, ht, hus⟩ := lexemes_eq_cons hus
  obtain ⟨u, us, rfl, hu, hus⟩ := lexemes_eq_cons hus
  obtain ⟨o, us, rfl, ho, hus⟩ := lexemes_eq_cons hus
  obtain ⟨va, vb, rfl, hva, hvb⟩ := lexemes_eq_append hus
  obtain ⟨c, vb, rfl, hc, hvb⟩ := lexemes_eq_cons hvb
  obtain ⟨p, vb, rfl, hp, hvb⟩ := lexemes_eq_cons hvb
  obtain ⟨q, rfl, hq⟩ := lexemes_eq_one hvb
  have hlist : t :: u :: o :: (va ++ [c, p, q]) ++ rest =
      t :: u :: o :: (va ++ c :: p :: q :: rest) := by simp
  have hfuel : fuel + (t :: u :: o :: (va ++ [c, p, q])).length =
      fuel + (va.length + 4) + 1 + 1 := by
    simp only [List.length_cons, List.length_append, List.length_nil]
    omega
  have hclosing : closingOf? "<" (va ++ c :: p :: q :: rest) = some va.length := by
    have hlast : closing? [">"] (c :: p :: q :: rest) = some 0 := by simp [closing?, hc, closer?]
    show closing? [">"] (va ++ c :: p :: q :: rest) = _
    rw [htypes va _ hva, hlast]
    simp
  have hskip : Stream.skip (va ++ c :: p :: q :: rest) (va.length + 1) = p :: q :: rest := by
    rw [Stream.skip, ← List.drop_drop, List.drop_left]
    rfl
  refine ⟨va.length + 4, .call o.token.line (.member u.token.line e method) []
    (some (textUpTo (grammar source (d + 1)) (va ++ c :: p :: q :: rest) va.length)),
    [⟨o.token.line, method, [], _⟩], ?_, rfl, trivial⟩
  rw [hlist, hfuel, suffixes_member ht hu, suffixes_typed ho hclosing hskip hp]
  exact arguments_nil _ rest hp hq

/-! ## Bindings -/

theorem expectName_cons (us : Stream) {name : String} (ht : t.token.lexeme = .identifier name) :
    expectName (t :: us) = .ok (name, us) := by
  simp [expectName, Stream.name?, Token.name?, ht, next_cons]

theorem patternNames_reads (names : List String) (rest : Stream)
    (hus : us.lexemes = listed (names.map fun n => [.identifier n]))
    (ht : t.token.lexeme = .punct r"}") (hfuel : us.length < fuel) :
    patternNames fuel (us ++ t :: rest) = .ok (names, rest) := by
  have hitem : ∀ {t u : Lexed} (us : Stream) {name mark : String},
      t.token.lexeme = .identifier name → u.token.lexeme = .punct mark → mark ≠ ":" →
        ∃ found, patternName (t :: u :: us) = .ok (found, u :: us) ∧ found = name := by
    intro t u us name mark ht hu hmark
    refine ⟨name, ?_, rfl⟩
    rw [patternName, expectName_cons _ ht]
    show (if Stream.isPunct _ ":" then _ else _) = _
    rw [if_neg (by simp [isPunct_cons, hu, hmark])]
  obtain ⟨found, hfound, hnames⟩ := separated_names .bindingPattern names hitem rest hus ht hfuel
  obtain rfl : found = names := List.forall₂_eq_eq_eq ▸ hnames
  rw [patternNames_eq, hfound]

/-- A binding of the members of a value. -/
theorem ReadsStatement.binding {d : Nat} {ls : List Lexeme} {P : Expr → Prop} (names : List String)
    (h : ReadsExpr d ls P) :
    ReadsStatement d (.identifier "const" :: .punct r"{" ::
        listed (names.map fun n => [.identifier n]) ++
          .punct r"}" :: .punct "=" :: (ls ++ [Lexeme.punct ";"])) fun doc s =>
      ∃ line e, s = .binding line "const" names (some e) doc ∧ P e where
  starts := ⟨_, rfl, rfl⟩
  reads source us rest hus := by
    obtain ⟨t, us, rfl, ht, hus⟩ := lexemes_eq_cons hus
    obtain ⟨o, us, rfl, ho, hus⟩ := lexemes_eq_cons hus
    obtain ⟨vn, us, rfl, hvn, hus⟩ := lexemes_eq_append hus
    obtain ⟨c, us, rfl, hc, hus⟩ := lexemes_eq_cons hus
    obtain ⟨a, us, rfl, ha, hus⟩ := lexemes_eq_cons hus
    obtain ⟨ve, q, rfl, hve, hq⟩ := lexemes_eq_snoc hus
    obtain ⟨e, he, hP⟩ := h.reads source ve (q :: rest) hve (Ends.of_mark hq (by decide))
    have hlist : t :: o :: (vn ++ c :: a :: (ve ++ [q])) ++ rest =
        t :: o :: (vn ++ c :: a :: (ve ++ q :: rest)) := by simp
    have hlen : vn.length < (o :: (vn ++ c :: a :: (ve ++ q :: rest))).length := by
      simp only [List.length_append, List.length_cons]
      omega
    have hnames := patternNames_reads names (a :: (ve ++ q :: rest)) hvn hc hlen
    have hbinding : Program.binding (grammar source d) t.token.doc
        (t :: o :: (vn ++ c :: a :: (ve ++ q :: rest))) =
          .ok (.binding t.token.line "const" names (some e) t.token.doc, rest) := by
      unfold Program.binding boundNames
      rw [next_cons, if_pos (by simp [isPunct_cons, ho]), next_cons, hnames]
      simp only [bind, Except.bind, pure, Except.pure, isPunct_cons, ha, next_cons, he,
        endStatement_cons hq]
      simp [Stream.line, Stream.cited, Lexeme.cited, ht]
    refine ⟨_, ?_, t.token.line, e, rfl, hP⟩
    rw [hlist]
    unfold statement
    rw [if_neg (by simp [isPunct_cons, ht]), if_neg (by simp [isName_cons, ht]),
      if_neg (by simp [isName_cons, ht]),
      if_pos (by simp [isBinding, bindingKeywords, isName_cons, ht])]
    show (Program.binding _ t.token.doc _ >>= _) = _
    rw [hbinding]
    rfl

/-! ## Programs -/

theorem statements_reads {d : Nat} {source : List Char} {P : α → Statement → Prop}
    {uss : List Stream} {xs : List α}
    (h : List.Forall₂ (fun us x => (∃ l ∈ us.lexemes.head?, isStart l = true) ∧
      ∀ rest, ∃ s, statement (grammar source d) (us ++ rest) = .ok (some s, rest) ∧ P x s) uss xs)
    (ht : t.token.lexeme = .eof) (hfuel : uss.length < fuel) :
    ∃ ss, statements (grammar source d) fuel (uss.flatten ++ [t]) = .ok ss ∧
      List.Forall₂ (fun s x => P x s) ss xs := by
  induction h generalizing fuel with
  | nil =>
    obtain ⟨fuel, rfl⟩ := Nat.exists_eq_succ_of_ne_zero (by omega : fuel ≠ 0)
    exact ⟨[], by simp [statements, isEof_cons, ht], .nil⟩
  | @cons us x uss xs hus huss ih =>
    obtain ⟨fuel, rfl⟩ := Nat.exists_eq_succ_of_ne_zero (by omega : fuel ≠ 0)
    obtain ⟨s, hs, hP⟩ := hus.2 (uss.flatten ++ [t])
    obtain ⟨ss, hss, hPs⟩ := ih (Nat.lt_of_succ_lt_succ hfuel)
    refine ⟨s :: ss, ?_, .cons hP hPs⟩
    rw [List.flatten_cons, List.append_assoc, statements,
      if_neg (by simp [isEof_of_starts hus.1 rfl]), hs]
    show (statements _ fuel (uss.flatten ++ [t]) >>= _) = _
    rw [hss]
    rfl

end EventFlow.Program
