import EventFlow.Extraction.Model
import EventFlow.Proofs.Declaration.Behind
import EventFlow.Proofs.Token.Pieces

/-! Code behind a declaration on its line.

The lines of a declaration are taken as a whole: what stands behind its semicolon is neither read
with the declaration nor left for the program. So for a declaration `D` and code `R`

    extract (D ++ " " ++ R) = extract D        if the whole line ends like a declaration,

and the declaration has no end otherwise. Code that describes flows on a line of its own describes
none behind a declaration. -/

namespace EventFlow

open Text

/-! ## The tokens of the line -/

namespace Token

theorem stop_le_of_mem_tokensOf {here : Cursor} {cs : List Char} {placed : List Placed}
    (h : pieces here cs = .ok placed) (doc : Option String) :
    ∀ t ∈ (tokensOf doc placed).1, t.stop ≤ here.offset + cs.length := by
  rw [pieces_eq_ok_iff] at h
  induction h generalizing doc with
  | nil => simp [tokensOf]
  | @cons here c rest piece n more hat _ ih =>
    obtain ⟨hpos, hle⟩ := pieceAt_le hat
    have hstop : (here.advance ((c :: rest).take n)).offset = here.offset + n := by
      rw [offset_advance, List.length_take_of_le hle]
    intro t ht
    rw [← List.singleton_append, tokensOf_append] at ht
    rcases List.mem_append.1 ht with ht | ht
    · cases piece with
      | lexeme l =>
        obtain rfl : t = ⟨l, here, _, doc⟩ := by simpa [tokensOf] using ht
        simp only [List.length_cons]
        omega
      | _ => simp [tokensOf] at ht
    · have := ih _ t ht
      rw [List.length_drop] at this
      simp only [List.length_cons]
      omega

/-- Text behind a line adds tokens to those of the line. -/
theorem exists_pieces_append {here : Cursor} {a b : List Char} {pa pb : List Placed}
    (hb : ∀ c ∈ b.head?, stopper c = true) (hflata : '\n' ∉ a) (hflatb : '\n' ∉ b)
    (hpa : pieces here a = .ok pa) (hpb : pieces (here.advance a) b = .ok pb) :
    ∃ placed, pieces here (a ++ b) = .ok placed ∧
      ∀ doc, (tokensOf doc pa).1 <+: (tokensOf doc placed).1 := by
  rw [pieces_eq_ok_iff] at hpa
  induction hpa with
  | nil => exact ⟨pb, hpb, fun doc => List.nil_prefix⟩
  | @cons here c rest piece n more hat hmore ih =>
    by_cases hremark : piece = .remark
    · subst hremark
      obtain ⟨rfl, t, rfl⟩ : c = '/' ∧ ∃ t, rest = '/' :: t := by
        cases pieceAt_eq_ok_iff.1 hat with
        | remark => exact ⟨rfl, _, rfl⟩
      -- a remark takes the text behind it as well
      have hflat : '\n' ∉ t ++ b := by
        simp only [List.mem_cons, not_or] at hflata
        simp [hflata.2.2, hflatb]
      refine ⟨_, pieces_single (pieceAt_remark_to_end hflat), fun doc => ?_⟩
      have hnone : more = [] := by
        have hwhole := pieces_cons hat (pieces_eq_ok_iff.2 hmore)
        have hflat' : '\n' ∉ t := fun h => hflat (List.mem_append_left b h)
        rw [pieces_single (pieceAt_remark_to_end hflat')] at hwhole
        exact (List.cons.inj (Except.ok.inj hwhole)).2.symm
      rw [hnone]
      exact List.nil_prefix
    · obtain ⟨hat', hpos, hle⟩ := pieceAt_append c rest b piece n hremark (Or.inl hb) hat
      obtain ⟨placed, hplaced, hstarts⟩ := ih
        (fun h => hflata (List.mem_cons_of_mem _ (List.mem_of_mem_drop h)))
        (advance_rest hpos here c rest ▸ hpb)
      refine ⟨_, pieces_cons_extend hat' hle hplaced, fun doc => ?_⟩
      rw [← List.singleton_append, ← List.singleton_append (l := placed), tokensOf_append,
        tokensOf_append]
      exact (List.prefix_append_right_inj _).2 (hstarts _)

/-- A line and text behind it, token by token. -/
theorem exists_tokenizeFrom_append {line : Nat} {a b : List Char} {tokens : List Token}
    (hb : ∀ c ∈ b.head?, stopper c = true) (hflata : '\n' ∉ a) (hflatb : '\n' ∉ b)
    (hpb : ∃ here placed, pieces here b = .ok placed) (h : tokenizeFrom line a = .ok tokens) :
    ∃ ts e u, tokens = ts ++ [e] ∧ e.lexeme = .eof ∧ u ≠ [] ∧
      tokenizeFrom line (a ++ b) = .ok (ts ++ u) ∧ ∀ t ∈ ts, t.stop ≤ a.length := by
  obtain ⟨pa, hpa, h⟩ := bind_eq_ok.1 h
  cases h
  obtain ⟨here, placed, hplaced⟩ := hpb
  obtain ⟨pb, hpb, -⟩ := pieces_alike hplaced ((Cursor.start line).advance a)
  obtain ⟨whole, hwhole, hstarts⟩ := exists_pieces_append hb hflata hflatb hpa hpb
  obtain ⟨us, hus⟩ := hstarts none
  let stop := (Cursor.start line).advance (a ++ b)
  refine ⟨_, _, us ++ [⟨.eof, stop, stop.offset, (tokensOf none whole).2⟩], ofPieces_eq _ none pa,
    rfl, by simp, ?_, ?_⟩
  · rw [tokenizeFrom, hwhole]
    show Except.ok (ofPieces _ none whole) = _
    rw [ofPieces_eq, ← hus, List.append_assoc]
  · have hle := stop_le_of_mem_tokensOf hpa none
    rwa [show (Cursor.start line).offset = 0 from rfl, Nat.zero_add] at hle

end Token

/-! ## The scan of the line -/

namespace Declaration

variable {line name : String} {d : Declaration} {depth : Nat} {p q : Progress}

theorem scanFrom_single (index : Nat) (line : String) :
    scanFrom index {} none [line] = match declaredName? line with
      | none => []
      | some name =>
        [⟨name, index, index,
          if (LineState.consume {} line).closes line then .closed else .missing⟩] := by
  rw [scanFrom]
  cases declaredName? line with
  | none => rfl
  | some name =>
    simp only [LineState.insideText, Option.isSome_none, Bool.or_self, Bool.false_eq_true, if_false,
      begin]
    cases (LineState.consume {} line).closes line <;> rfl

theorem scan_cons (hname : declaredName? line = some name)
    (hcloses : (LineState.consume {} line).closes line = true) (rest : List String) :
    scan (line :: rest) = ⟨name, 0, 0, .closed⟩ :: scanFrom 1 {} none rest := by
  rw [scan, scanFrom]
  simp only [LineState.insideText, Option.isSome_none, Bool.or_self, Bool.false_eq_true, if_false,
    hname, begin, hcloses, if_true]

theorem eq_of_scan_single (h : scan [line] = [d]) (hterminated : d.terminated = true) :
    declaredName? line = some d.name ∧ (LineState.consume {} line).closes line = true ∧
      d = ⟨d.name, 0, 0, .closed⟩ := by
  rw [scan, scanFrom_single] at h
  cases hname : declaredName? line with
  | none => simp [hname] at h
  | some name =>
    rw [hname] at h
    obtain rfl := (List.cons.inj h).1
    cases hcloses : (LineState.consume {} line).closes line with
    | true => exact ⟨rfl, rfl, by simp⟩
    | false => simp [terminated, hcloses] at hterminated

theorem scan_single_of_ne (hname : declaredName? line = some name)
    (h : scan [line] ≠ [⟨name, 0, 0, .closed⟩]) : scan [line] = [⟨name, 0, 0, .missing⟩] := by
  have hopen : (LineState.consume {} line).closes line = false := by
    rw [← Bool.not_eq_true]
    exact fun hcloses => h (scan_cons hname hcloses [])
  rw [scan, scanFrom_single, hname]
  simp only [hopen, Bool.false_eq_true, if_false]

theorem prefix_of_keyword? {word : String} {cs rest : List Char}
    (h : keyword? word cs = some rest) : word.toList <+: cs := by
  unfold keyword? at h
  split at h
  · next c tail hstrip => exact ⟨c :: tail, (stripStart_eq_some_iff.1 hstrip).symm⟩
  · cases h

theorem keyword?_append {word : String} {cs rest : List Char} (h : keyword? word cs = some rest)
    (hne : rest ≠ []) (b : List Char) : keyword? word (cs ++ b) = some (rest ++ b) := by
  unfold keyword? at h ⊢
  split at h
  · next c tail hstrip =>
    rw [stripStart_eq_some_iff] at hstrip
    rw [hstrip, List.append_assoc, stripStart_append_self]
    split at h
    · next hblank =>
      obtain rfl := Option.some.inj h
      have hdrop : (tail ++ b).dropWhile isBlank = tail.dropWhile isBlank ++ b := by
        rw [List.dropWhile_append, if_neg]
        simpa [dropBlanks] using hne
      simp only [List.cons_append, if_pos hblank]
      rw [dropBlanks, hdrop]
      rfl
    · cases h
  · cases h

/-- A blank behind a line does not go on with the name that it declares. -/
theorem declaredName?_append (h : declaredName? line = some name) {b : String}
    (hb : ∀ c ∈ b.toList.head?, isNamePart c = false) : declaredName? (line ++ b) = some name := by
  unfold declaredName? at h
  dsimp only at h
  split at h
  · next c rest hkeyword =>
    have hkeyword' : keyword? "type" ((keyword? "export" (line ++ b).toList).getD
        (line ++ b).toList) = some (c :: rest ++ b.toList) := by
      rw [String.toList_append]
      cases hexport : keyword? "export" line.toList with
      | some tail =>
        rw [hexport] at hkeyword
        have hne : tail ≠ [] := by
          rintro rfl
          cases hkeyword
        rw [keyword?_append hexport hne]
        exact keyword?_append hkeyword (List.cons_ne_nil c rest) b.toList
      | none =>
        rw [hexport, Option.getD_none] at hkeyword
        have hnone : keyword? "export" (line.toList ++ b.toList) = none := by
          obtain ⟨tail, htail⟩ := prefix_of_keyword? hkeyword
          rw [← htail]
          rfl
        rw [hnone]
        exact keyword?_append hkeyword (List.cons_ne_nil c rest) b.toList
    have hname : (rest ++ b.toList).takeWhile isNamePart = rest.takeWhile isNamePart := by
      have hnone : b.toList.takeWhile isNamePart = [] := by
        cases hlist : b.toList with
        | nil => rfl
        | cons d tail => exact List.takeWhile_cons_of_neg (by simp [hb d (by rw [hlist]; rfl)])
      rw [List.takeWhile_append]
      split
      · next hlength =>
        rw [hnone, List.append_nil, (List.takeWhile_prefix isNamePart).eq_of_length hlength]
      · rfl
    unfold declaredName?
    simp only [hkeyword', List.cons_append, hname]
    exact h
  · cases h

/-! ## The table of the line -/

/-- A declaration on the first line has no comment above it and does not depend on the lines after
it. -/
theorem readOne_first (depth : Nat) (line : String) (rest : List String) (name : String) :
    readOne depth (line :: rest) {} ⟨name, 0, 0, .closed⟩ =
      match Token.tokenizeFrom 1 line.toList with
      | .error c => .error (c.map .lexical)
      | .ok tokens =>
        meaning depth line.toList none tokens >>= Progress.add {} ⟨name, 0, 0, .closed⟩ none := rfl

theorem readOne_first_eq_ok_iff {rest : List String} :
    readOne depth (line :: rest) {} ⟨name, 0, 0, .closed⟩ = .ok p ↔
      ∃ tokens m, Token.tokenizeFrom 1 line.toList = .ok tokens ∧
        meaning depth line.toList none tokens = .ok m ∧
        Progress.add {} ⟨name, 0, 0, .closed⟩ none m = .ok p := by
  rw [readOne_first]
  cases htokens : Token.tokenizeFrom 1 line.toList with
  | error c => simp
  | ok tokens => simp [bind_eq_ok]

/-- A semicolon ends a declaration: what stands behind it on its line is not read. -/
theorem readOne_append {b : String} {tokens : Tokens}
    (htokens : Token.tokenizeFrom 1 line.toList = .ok tokens)
    (hlast : ∃ t ∈ tokens.dropLast.getLast?, t.isPunct ";" = true) (hline : '\n' ∉ line.toList)
    (hflat : '\n' ∉ b.toList) (hstop : ∀ c ∈ b.toList.head?, Token.stopper c = true)
    (hb : ∃ here placed, Token.pieces here b.toList = .ok placed)
    (h : readOne depth [line] {} ⟨name, 0, 0, .closed⟩ = .ok p) :
    readOne depth [line ++ b] {} ⟨name, 0, 0, .closed⟩ = .ok p := by
  obtain ⟨tokens', m, htokens', hm, hadd⟩ := readOne_first_eq_ok_iff.1 h
  obtain rfl := Except.ok.inj (htokens'.symm.trans htokens)
  obtain ⟨a, e, u, rfl, he, hu, hwhole, hstops⟩ :=
    Token.exists_tokenizeFrom_append hstop hline hflat hb htokens
  rw [List.dropLast_concat] at hlast
  have hm' := meaning_append he hu b.toList hlast hstops hm
  rw [← String.toList_append] at hwhole hm'
  exact readOne_first_eq_ok_iff.2 ⟨_, m, hwhole, hm', hadd⟩

theorem exists_of_readOne {lines : List String} (h : readOne depth lines p d = .ok q) :
    ∃ tokens m, Token.tokenizeFrom (d.start + 1) (sourceOf lines d) = .ok tokens ∧
      p.add d (leadingDoc? lines d.start) m = .ok q := by
  unfold readOne at h
  dsimp only at h
  split at h
  · cases h
  split at h
  · cases h
  split at h
  · cases h
  next tokens htokens =>
  obtain ⟨m, -, hadd⟩ := bind_eq_ok.1 h
  exact ⟨tokens, m, htokens, hadd⟩

theorem aliases_prefix_of_add {doc : Option LeadingDoc} {m : Meaning} (h : p.add d doc m = .ok q) :
    p.aliases <+: q.aliases := by
  cases m with
  | other =>
    cases h
    exact List.prefix_refl _
  | sameAs target =>
    cases h
    exact List.prefix_append _ _
  | message m =>
    unfold Progress.add at h
    dsimp only at h
    split at h
    · cases h
    · cases h
      exact List.prefix_refl _

theorem aliases_prefix_of_foldlM {lines : List String} {ds : List Declaration}
    (h : ds.foldlM (readOne depth lines) p = .ok q) : p.aliases <+: q.aliases := by
  induction ds generalizing p with
  | nil =>
    cases h
    exact List.prefix_refl _
  | cons d ds ih =>
    rw [List.foldlM_cons] at h
    obtain ⟨r, hr, h⟩ := bind_eq_ok.1 h
    obtain ⟨tokens, m, -, hadd⟩ := exists_of_readOne hr
    exact (aliases_prefix_of_add hadd).trans (ih h)

theorem resolveAlias_self {aliases types : Names} {messages : List String}
    (h : aliases.lookup name = some name) (depth : Nat) :
    resolveAlias aliases types messages (depth + 2) [] name =
      .error (.circular (ascendingSet [name, name])) := by
  simp [resolveAlias, h]

/-- If aliases can be followed, the first of them can be followed on its own: only an alias of
itself could not, and that is circular whatever else is declared. -/
theorem exists_resolveAll_first {m : Meaning} {names : Names}
    (hp : Progress.add {} d none m = .ok p) (hpq : p.aliases <+: q.aliases)
    (h : resolveAll depth q = .ok names) : ∃ names, resolveAll depth p = .ok names := by
  cases m with
  | other =>
    cases hp
    exact ⟨[], rfl⟩
  | message m =>
    cases hp
    exact ⟨[], rfl⟩
  | sameAs target =>
    cases hp
    obtain ⟨more, hmore⟩ := hpq
    replace hmore : q.aliases = (d.name, target) :: more := hmore.symm
    rw [resolveAll, hmore, List.foldlM_cons] at h
    obtain ⟨_, hfirst, -⟩ := bind_eq_ok.1 h
    dsimp only at hfirst
    -- an alias takes two steps, so there are as many
    obtain ⟨k, rfl⟩ : ∃ k, depth = k + 2 := by
      rcases depth with _ | _ | k
      · cases hfirst
      · simp [resolveAlias] at hfirst
      · exact ⟨k, rfl⟩
    by_cases htarget : target = d.name
    · subst htarget
      rw [resolveAlias_self List.lookup_cons_self] at hfirst
      cases hfirst
    · exact ⟨[], by simp [resolveAll, resolveAlias, htarget]⟩

theorem table_single {lines : List String} (h : readOne depth lines {} d = .ok p) :
    table depth lines [d] =
      resolveAll depth p >>= fun aliases => .ok ⟨p.messages, p.types, aliases, p.docLines⟩ := by
  rw [table, List.foldlM_cons, h]
  rfl

/-- The parts of a table whose first declaration is on the first line. -/
theorem exists_of_table_first {rest : List String} {ds : List Declaration}
    {declared : Declared}
    (h : table depth (line :: rest) (⟨name, 0, 0, .closed⟩ :: ds) = .ok declared) :
    ∃ p q own, readOne depth [line] {} ⟨name, 0, 0, .closed⟩ = .ok p ∧ p.docLines = [] ∧
      table depth [line] [⟨name, 0, 0, .closed⟩] = .ok own ∧
      ds.foldlM (readOne depth (line :: rest)) p = .ok q ∧
      declared.docLines = q.docLines := by
  rw [table, List.foldlM_cons] at h
  obtain ⟨q, hq, h⟩ := bind_eq_ok.1 h
  obtain ⟨p, hp, hq⟩ := bind_eq_ok.1 hq
  obtain ⟨names, hnames, h⟩ := bind_eq_ok.1 h
  cases h
  obtain ⟨tokens, m, htokens, hm, hadd⟩ := readOne_first_eq_ok_iff.1 hp
  obtain ⟨own, hown⟩ := exists_resolveAll_first hadd (aliases_prefix_of_foldlM hq) hnames
  have hp' : readOne depth [line] {} ⟨name, 0, 0, .closed⟩ = .ok p :=
    readOne_first_eq_ok_iff.2 ⟨tokens, m, htokens, hm, hadd⟩
  refine ⟨p, q, ⟨p.messages, p.types, own, p.docLines⟩, hp', ?_, ?_, hq, rfl⟩
  · cases m <;> cases hadd <;> rfl
  · rw [table_single hp', hown]
    rfl

end Declaration

/-! ## The model of the line -/

namespace Extraction

open Declaration Token

theorem linesOf_of_not_mem {s : String} (h : '\n' ∉ s.toList) : linesOf s = [s] := by
  have hplain : ¬ ("\r\n" : String).toList <:+: s.toList := fun hin =>
    h (hin.subset (by decide))
  rw [linesOf, replaceAll_of_not_infix _ hplain, cut_of_not_mem h]
  simp

theorem linesOf_two {a b : String} (ha : '\n' ∉ a.toList) (hend : a.toList.getLast? ≠ some '\r')
    (hb : '\n' ∉ b.toList) : linesOf (a ++ "\n" ++ b) = [a, b] := by
  have hlist : (a ++ "\n" ++ b).toList = a.toList ++ '\n' :: b.toList := by
    simp [String.toList_append]
  have hplain : ¬ ("\r\n" : String).toList <:+: a.toList ++ '\n' :: b.toList := by
    rintro ⟨s, t, hst⟩
    have hsplit : (s ++ ['\r']) ++ '\n' :: t = a.toList ++ '\n' :: b.toList := by
      rw [← hst]
      simp
    -- there is one line break, and what stands before it is `a`
    rcases List.append_eq_append_iff.1 hsplit with ⟨c, hc, ht⟩ | ⟨c, hc, ht⟩
    · cases c with
      | nil => exact hend (by simp [hc])
      | cons x c =>
        obtain rfl := (List.cons.inj ht).1
        exact ha (by simp [hc])
    · cases c with
      | nil => exact hend (by rw [← List.append_nil a.toList, ← hc]; simp)
      | cons x c => exact hb (by rw [(List.cons.inj ht).2]; simp)
  rw [linesOf, hlist, replaceAll_of_not_infix _ hplain, cut_append_sep,
    cut_of_not_mem ha, cut_of_not_mem hb]
  simp

theorem programOf_nil (depth : Nat) : programOf depth [] = .ok [] := by
  have htokens : tokenizeFrom 1 [] = .ok [⟨.eof, .start 1, 0, none⟩] := by
    unfold tokenizeFrom pieces
    rfl
  unfold programOf
  rw [htokens]
  rfl

/-- A line with a declaration describes what it declares and nothing else. -/
theorem extract_single (config : Config) {line name : String} (hflat : '\n' ∉ line.toList)
    (hscan : scan [line] = [⟨name, 0, 0, .closed⟩]) :
    extract config line = match table config.nestingLimit [line] [⟨name, 0, 0, .closed⟩] with
      | .error c => .error (c.map .declaration)
      | .ok declared => .ok ⟨[], declared.messages, []⟩ := by
  unfold extract
  dsimp only
  rw [linesOf_of_not_mem hflat, hscan]
  cases table config.nestingLimit [line] [⟨name, 0, 0, .closed⟩] with
  | error c => rfl
  | ok declared =>
    have hblank : blankLines (declarationLines [⟨name, 0, 0, .closed⟩] declared) [line] = [""] :=
      rfl
    dsimp only
    rw [hblank, show (unlines [""]).toList = [] from rfl, programOf_nil]
    show Except.ok (⟨[], declared.messages ++ [], []⟩ : Model) = _
    rw [List.append_nil]

theorem extract_eq_of_readOne (config : Config) {a b name : String} {p : Progress}
    (ha : '\n' ∉ a.toList) (hb : '\n' ∉ b.toList) (hscana : scan [a] = [⟨name, 0, 0, .closed⟩])
    (hscanb : scan [b] = [⟨name, 0, 0, .closed⟩])
    (hpa : readOne config.nestingLimit [a] {} ⟨name, 0, 0, .closed⟩ = .ok p)
    (hpb : readOne config.nestingLimit [b] {} ⟨name, 0, 0, .closed⟩ = .ok p) :
    extract config b = extract config a := by
  rw [extract_single config ha hscana, extract_single config hb hscanb, table_single hpa,
    table_single hpb]

theorem extract_missing (config : Config) {line name : String} (hflat : '\n' ∉ line.toList)
    (hscan : scan [line] = [⟨name, 0, 0, .missing⟩]) :
    extract config line = .error ⟨.declaration (.unterminated name), some 1, none⟩ := by
  unfold extract
  dsimp only
  rw [linesOf_of_not_mem hflat, hscan]
  rfl

theorem exists_pieces_of_tokenizeFrom {line : Nat} {cs : List Char} {tokens : List Token}
    (h : tokenizeFrom line cs = .ok tokens) : ∃ placed, pieces (.start line) cs = .ok placed := by
  obtain ⟨placed, hplaced, -⟩ := bind_eq_ok.1 h
  exact ⟨placed, hplaced⟩

theorem exists_tokens_of_programOf {depth : Nat} {cs : List Char} {program : List Statement}
    (h : programOf depth cs = .ok program) : ∃ tokens, tokenizeFrom 1 cs = .ok tokens := by
  unfold programOf at h
  split at h
  · cases h
  · next tokens htokens => exact ⟨tokens, htokens⟩

theorem exists_pieces_blank {cs : List Char} (h : ∃ here placed, pieces here cs = .ok placed) :
    ∃ here placed, pieces here (' ' :: cs) = .ok placed := by
  obtain ⟨here, placed, hplaced⟩ := h
  obtain ⟨moved, hmoved, -⟩ := pieces_alike hplaced (here.advance [' '])
  exact ⟨here, _, pieces_cons (p := .blank) (n := 1) rfl hmoved⟩

/-- If a declaration and a line after it describe a model, the declaration can be read on its own,
and the line can be cut into pieces: with the program, or as a declaration. -/
theorem exists_of_extract_two {config : Config} {a b name : String} {m : Model}
    (ha : '\n' ∉ a.toList) (hend : a.toList.getLast? ≠ some '\r') (hb : '\n' ∉ b.toList)
    (hname : declaredName? a = some name) (hcloses : (LineState.consume {} a).closes a = true)
    (h : extract config (a ++ "\n" ++ b) = .ok m) :
    (∃ p own, readOne config.nestingLimit [a] {} ⟨name, 0, 0, .closed⟩ = .ok p ∧
      table config.nestingLimit [a] [⟨name, 0, 0, .closed⟩] = .ok own) ∧
    ∃ here placed, pieces here b.toList = .ok placed := by
  obtain ⟨declared, program, htable, hprogram, -⟩ := exists_of_extract h
  rw [linesOf_two ha hend hb, scan_cons hname hcloses, scanFrom_single] at htable hprogram
  obtain ⟨p, q, own, hp, hdocs, hown, hq, hlines⟩ := exists_of_table_first htable
  refine ⟨⟨p, own, hp, hown⟩, ?_⟩
  cases hdeclares : declaredName? b with
  | some other =>
    rw [hdeclares, List.foldlM_cons] at hq
    obtain ⟨r, hr, -⟩ := bind_eq_ok.1 hq
    obtain ⟨tokens, -, htokens, -⟩ := exists_of_readOne hr
    exact ⟨.start 2, exists_pieces_of_tokenizeFrom htokens⟩
  | none =>
    rw [hdeclares] at hq hprogram
    cases hq
    have hblank : blankLines (declarationLines [⟨name, 0, 0, .closed⟩] declared) [a, b] =
        ["", b] := by
      rw [declarationLines, hlines, hdocs]
      rfl
    have hlist : (unlines ["", b]).toList = '\n' :: b.toList := by
      simp [unlines, joinWith, String.toList_append]
    rw [hblank, hlist] at hprogram
    obtain ⟨tokens, htokens⟩ := exists_tokens_of_programOf hprogram
    obtain ⟨placed, hplaced⟩ := exists_pieces_of_tokenizeFrom htokens
    obtain ⟨p, k, more, hat, hmore, -⟩ := pieces_cons_inv hplaced
    cases hat
    exact ⟨_, more, hmore⟩

/-- Code behind a declaration is lost or refused. If the scan of the line finds the declaration as
it does without the code, the model is that of the declaration alone and has no flows; otherwise the
declaration has no end. So the flows that the code describes on a line of its own are lost exactly
if the scan finds the declaration. (A carriage return at the end would belong to the line break.) -/
theorem extract_sameLine (config : Config) {declaration code : String} {d : Declaration}
    {tokens : List Token} {m : Model} (hline : '\n' ∉ declaration.toList)
    (hend : declaration.toList.getLast? ≠ some '\r') (hcode : '\n' ∉ code.toList)
    (hscan : scan [declaration] = [d]) (hterminated : d.terminated = true)
    (htokens : tokenize declaration = .ok tokens)
    (hlast : ∃ t ∈ tokens.dropLast.getLast?, t.isPunct ";" = true)
    (h : extract config (declaration ++ "\n" ++ code) = .ok m) :
    let line := declaration ++ " " ++ code
    (extract config line =
      if scan [line] = [d] then extract config declaration
      else .error ⟨.declaration (.unterminated d.name), some 1, none⟩) ∧
    (∃ own, extract config declaration = .ok own ∧ own.flows = []) ∧
    ((∃ other, extract config line = .ok other ∧ other.flows ≠ m.flows) ↔
      scan [line] = [d] ∧ m.flows ≠ []) := by
  intro line
  obtain ⟨hname, hcloses, hd⟩ := eq_of_scan_single hscan hterminated
  obtain ⟨⟨p, own, hp, hown⟩, hpieces⟩ :=
    exists_of_extract_two hline hend hcode hname hcloses h
  have hbehind : line = declaration ++ (" " ++ code) := String.append_assoc
  have hlist : (" " ++ code).toList = ' ' :: code.toList := by simp [String.toList_append]
  have hflat : '\n' ∉ (" " ++ code).toList := by simpa [hlist] using hcode
  have hhead : ∀ c ∈ (" " ++ code).toList.head?, c = ' ' := by simp [hlist]
  have hflatline : '\n' ∉ line.toList := by simp [hbehind, String.toList_append, hline, hcode]
  have hnameline : declaredName? line = some d.name := by
    rw [hbehind]
    exact declaredName?_append hname fun c hc => hhead c hc ▸ by decide
  have hpline : readOne config.nestingLimit [line] {} ⟨d.name, 0, 0, .closed⟩ = .ok p := by
    rw [hbehind]
    refine readOne_append htokens hlast hline hflat (fun c hc => hhead c hc ▸ by decide) ?_ hp
    rw [hlist]
    exact exists_pieces_blank hpieces
  rw [hd] at hscan
  have hdeclaration : extract config declaration = .ok ⟨[], own.messages, []⟩ := by
    rw [extract_single config hline hscan, hown]
  have hwhole : extract config line =
      if scan [line] = [d] then extract config declaration
      else .error ⟨.declaration (.unterminated d.name), some 1, none⟩ := by
    split
    · next hsame =>
      exact extract_eq_of_readOne config hline hflatline hscan (hd ▸ hsame) hp hpline
    · next hdiffers =>
      exact extract_missing config hflatline (scan_single_of_ne hnameline (hd ▸ hdiffers))
  refine ⟨hwhole, ⟨_, hdeclaration, rfl⟩, ?_⟩
  rw [hwhole, hdeclaration]
  constructor
  · rintro ⟨other, hother, hne⟩
    split at hother
    · next hsame =>
      cases hother
      exact ⟨hsame, hne.symm⟩
    · cases hother
  · rintro ⟨hsame, hne⟩
    exact ⟨_, if_pos hsame, hne.symm⟩

/-- A message with a semicolon in a type. -/
def declaredEvent : String := r"export type A = Event<'A', { x?: ';' | B<C> }>;"

theorem extract_sameLine_declaredEvent :
    let line := declaredEvent ++ " " ++ "flow('F', () => {});"
    scan [declaredEvent] = [⟨"A", 0, 0, .closed⟩] ∧ scan [line] = [⟨"A", 0, 0, .closed⟩] ∧
      ∃ m other, extract {} (declaredEvent ++ "\n" ++ "flow('F', () => {});") = .ok m ∧
        m.flows.map (·.name) = ["F"] ∧ extract {} line = .ok other ∧ other.flows ≠ m.flows := by
  intro line
  have hscan : scan [declaredEvent] = [⟨"A", 0, 0, .closed⟩] := by decide +kernel
  have hscanline : scan [line] = [⟨"A", 0, 0, .closed⟩] := by decide +kernel
  have hmodel : (extract {} (declaredEvent ++ "\n" ++ "flow('F', () => {});")).toOption.map
      (fun m => m.flows.map (·.name)) = some ["F"] := by decide +kernel
  obtain ⟨m, hm, hflows⟩ := Option.map_eq_some_iff.1 hmodel
  have hne : m.flows ≠ [] := by
    intro hnil
    rw [hnil] at hflows
    cases hflows
  have hcheck : (tokenize declaredEvent).toOption.map (fun tokens =>
      tokens.dropLast.getLast?.any (·.isPunct ";")) = some true := by decide +kernel
  obtain ⟨tokens, htokens, hlast⟩ := Option.map_eq_some_iff.1 hcheck
  obtain ⟨other, hother, hdiffers⟩ := (extract_sameLine {} (by decide +kernel) (by decide +kernel)
    (by decide +kernel) hscan (by decide) (toOption_eq_some htokens)
    (by simpa [Option.any_eq_true] using hlast) (toOption_eq_some hm)).2.2.2 ⟨hscanline, hne⟩
  exact ⟨hscan, hscanline, m, other, toOption_eq_some hm, hflows, hother, hdiffers⟩

/-- A flow behind an alias is lost, and none of the two is refused. -/
theorem extract_alias_sameLine :
    scan ["type A = string;"] = [⟨"A", 0, 0, .closed⟩] ∧
      lexemes? "type A = string;" = some [.identifier "type", .identifier "A", .punct "=",
        .identifier "string", .punct ";", .eof] ∧
      extract {} "type A = string;\nflow('F', () => {});" =
        .ok ⟨[{ name := "F" }], [], []⟩ ∧
      extract {} "type A = string; flow('F', () => {});" = .ok ⟨[], [], []⟩ :=
  ⟨by decide +kernel, by decide +kernel, by decide +kernel, by decide +kernel⟩

end Extraction

end EventFlow
