import EventFlow.Extraction.Model
import EventFlow.Proofs.Emission.Message

/-! The declarations of messages are found where they were written.

Between other lines, each declaration is found on its own lines, with the comment above it, and the
table of all of them holds the messages in their order:

    scanFrom i s none (messageCode m ++ rest) = ⟨m.name, i, …⟩ :: scanFrom (i + …) s none rest
    table d lines (scan lines) = ok messages

The lines of one message are the smallest such text, and declare that message. -/

namespace EventFlow.Emission

open Declaration LineState DocComment Text Token

variable {d : Nat} {f : Field} {m : Message} {ms : List Message} {tags : List Tag} {p : Progress}
  {i : Nat}

/-! ## Lines of a declaration -/

theorem inline_fieldLine (h : f.Proper d) :
    ∃ ls, Inline (fieldLine f) ls ∧ netBraces ls = 0 ∧ netAngles ls = 0 := by
  obtain ⟨l, hl, hhead⟩ := inline_fieldHead h.key
  obtain ⟨lt, htype, hnests, -⟩ := exists_of_isFieldType h.type
  have hnet := net_of_nests hnests
  have hsteps : braceStep l = 0 ∧ angleStep l = 0 := by
    rcases hl with rfl | rfl <;> exact steps_of_other (by simp)
  have hmarks : netBraces (fieldMarks f) = 0 ∧ netAngles (fieldMarks f) = 0 := by
    unfold fieldMarks
    cases f.required <;> decide
  refine ⟨(l :: fieldMarks f) ++ (lt ++ [.punct ";"]), ?_, ?_⟩
  · rw [fieldLine_eq]
    exact hhead.append (htype.append Inline.semicolon (Or.inr (by decide)))
      (Or.inl (closed_fieldHead f))
  · have hend : braceStep (.punct ";") = 0 ∧ angleStep (.punct ";") = 0 := by decide
    simp only [netBraces, netAngles, List.map_append, List.map_cons, List.map_nil, List.sum_append,
      List.sum_cons, List.sum_nil] at hnet hmarks ⊢
    omega

theorem head?_fieldLine (f : Field) : (fieldLine f).toList.head? = some ' ' := by
  simp [fieldLine, String.toList_append]

/-- The search goes past the lines of a field, inside the braces of the declaration. -/
theorem skips_fieldBlock (h : f.Proper d) :
    Skips (fun s => 0 < s.braces) (level 1 1) (fieldBlock f) (level 1 1) := by
  have hcomment := (isFaithful_field h).sayable.skips (by decide : IsIndent "  ")
    (P := fun s => 0 < s.braces) (b := 1) (a := 1) (by decide) (by decide)
  obtain ⟨ls, hinline, hbraces, hangles⟩ := inline_fieldLine h
  have hname : declaredName? (fieldLine f) = none :=
    declaredName?_of_head (by simp [head?_fieldLine]) (by simp [head?_fieldLine])
  have hline := Skips.inline (P := fun s => 0 < s.braces) hinline hname 1 1
    (by show (0 : Int) < 1 + netBraces ls; omega)
  rw [hbraces, hangles] at hline
  exact hcomment.append hline

theorem skips_fieldBlocks {fs : List Field} (h : ∀ f ∈ fs, f.Proper d) :
    Skips (fun s => 0 < s.braces) (level 1 1) (fs.flatMap fieldBlock) (level 1 1) := by
  induction fs with
  | nil => rfl
  | cons f fs ih =>
    rw [List.flatMap_cons]
    exact (skips_fieldBlock (h f List.mem_cons_self)).append
      (ih fun g hg => h g (List.mem_cons_of_mem _ hg))

/-- A character of a name is one to the search for declarations too. -/
theorem isNamePart_of_token {c : Char} (h : Token.isNamePart c = true) :
    Declaration.isNamePart c = true := by
  have hlt := toNat_lt_of_isNamePart h
  unfold Declaration.isNamePart isWord
  rw [if_pos hlt]
  simpa [Token.isNamePart, Bool.or_assoc] using h

theorem declaredName?_messageHead (h : isFullName m.name = true) (x : String) :
    declaredName? (messageHead m ++ x) = some m.name := by
  obtain ⟨c, w, hs, hc, hw⟩ := exists_of_isFullName h
  have hblank : isBlank c = false :=
    (isNamePart_facts (isNamePart_of_isNameStart hc)).1
  obtain ⟨tail, htail⟩ : ∃ tail, (messageHead m ++ x).toList =
      't' :: 'y' :: 'p' :: 'e' :: ' ' :: (c :: w ++ ' ' :: tail) :=
    ⟨("= " ++ m.kind.typeName ++ "<" ++ quote m.name ++ r", {" ++ x).toList,
      by simp [messageHead, String.toList_append, hs]⟩
  have htake : (w ++ ' ' :: tail).takeWhile Declaration.isNamePart = w := by
    rw [List.takeWhile_append_of_pos fun y hy => isNamePart_of_token (List.all_eq_true.1 hw y hy),
      List.takeWhile_cons, if_neg (by decide), List.append_nil]
  have hname : String.ofList (c :: w) = m.name := by rw [← hs, String.ofList_toList]
  unfold declaredName?
  dsimp only
  have hexport : keyword? "export" (messageHead m ++ x).toList = none := by
    rw [htail]
    rfl
  have htype : keyword? "type" (messageHead m ++ x).toList = some (c :: (w ++ ' ' :: tail)) := by
    rw [htail]
    show (if isBlank ' ' then some (dropBlanks (c :: (w ++ ' ' :: tail))) else none) = _
    rw [if_pos (by decide), dropBlanks_of_isTrimmedStart]
    intro y hy
    cases hy
    exact hblank
  rw [hexport, Option.getD_none, htype]
  simp only
  rw [if_pos (show Declaration.isNameStart c = true from hc), htake, hname]

/-! ## The search -/

theorem consume_start {t : String} {ls : List Lexeme} (h : Inline t ls) :
    LineState.consume {} t = level (netBraces ls) (netAngles ls) := by
  have := consume_inline h 0 0
  rwa [Int.zero_add, Int.zero_add] at this

theorem inline_footer : Inline r"}>;" [.punct r"}", .punct ">", .punct ";"] :=
  Inline.of_check

theorem net_headLexemes (m : Message) :
    netBraces (headLexemes m) = 1 ∧ netAngles (headLexemes m) = 1 := by
  simp [headLexemes, netBraces, netAngles, braceStep, angleStep]

theorem closes_of_ends {t : String} (hstart : IsTrimmedStart t.toList)
    (hend : t.toList.getLast? = some ';') : (level 0 0).closes t = true := by
  have hsuffix : endsWith ";" (trimChars t.toList) = true := by
    rw [trimChars_of_isTrimmed hstart fun c hc => ?_, endsWith_iff]
    · obtain ⟨init, hinit⟩ := List.getLast?_eq_some_iff.1 hend
      exact ⟨init, hinit.symm⟩
    · rw [hend] at hc
      cases hc
      decide
  simpa [closes, balanced, level, codePart] using hsuffix

/-- A declaration is found on its lines. -/
theorem scanFrom_messageCode (h : m.Proper d) (index : Nat) {outer : LineState}
    (houter : outer.insideText = false) (rest : List String) :
    scanFrom index outer none (messageCode m ++ rest) =
      ⟨m.name, index, index + (messageCode m).length - 1, .closed⟩ ::
        scanFrom (index + (messageCode m).length) outer none rest := by
  obtain ⟨hbraces, hangles⟩ := net_headLexemes m
  have hhead := inline_messageHead h.name
  unfold messageCode
  split
  · -- one line that is closed at once
    have hinline := hhead.append inline_footer (Or.inr (by decide))
    have hstate : LineState.consume {} (messageHead m ++ r"}>;") = level 0 0 := by
      rw [consume_start hinline]
      simp [headLexemes, netBraces, netAngles, braceStep, angleStep]
    have hbegin : begin m.name index (messageHead m ++ r"}>;") =
        .inl ⟨m.name, index, index, .closed⟩ := by
      unfold begin
      dsimp only
      rw [hstate, if_pos (closes_of_ends ?_ ?_)]
      · simp [messageHead, String.toList_append, IsTrimmedStart]
        decide
      · simp [String.toList_append]
    rw [List.singleton_append, scanFrom]
    simp only [houter, Bool.false_eq_true, if_false, declaredName?_messageHead h.name, hbegin]
    rfl
  · -- the brace stays open over the lines of the fields
    have hstate : LineState.consume {} (messageHead m) = level 1 1 := by
      rw [consume_start hhead, hbraces, hangles]
    have hbegin : begin m.name index (messageHead m) = .inr ⟨m.name, index, level 1 1⟩ := by
      unfold begin
      rw [hstate]
      rfl
    have hclose : (level 1 1).consume r"}>;" = level 0 0 := by
      rw [consume_inline inline_footer]
      rfl
    have hname := declaredName?_messageHead h.name ""
    rw [String.append_empty] at hname
    rw [List.cons_append, scanFrom]
    simp only [houter, Bool.false_eq_true, if_false, hname, hbegin]
    rw [List.append_assoc, scanFrom_skips_pending (skips_fieldBlocks h.fields),
      List.singleton_append, scanFrom]
    have hnone : declaredName? r"}>;" = none := by decide
    have hcloses : (level 0 0).closes r"}>;" = true := by decide
    simp only [hclose, hcloses, hnone, ite_self, if_true]
    have hnext : index + 1 + (m.fields.flatMap fieldBlock).length + 1 = index +
        (messageHead m :: (m.fields.flatMap fieldBlock ++ [r"}>;"])).length := by
      simp only [List.length_cons, List.length_append, List.length_nil]
      omega
    rw [← hnext, Nat.add_sub_cancel]

/-! ## The comment above a declaration -/

/-- The lines of a comment between its delimiters are taken up on the way to its first line. -/
theorem opening?_lines {ls : List String} (h : ∀ l ∈ ls, ¬ ['*', '/'] <:+: l.toList ∧
      ¬ startsWith "/*" (dropBlanks l.toList) = true) {taken : List String}
    (htaken : taken ≠ []) (above : List String) :
    opening? taken (ls.reverse ++ above) = opening? (ls ++ taken) above := by
  induction ls using List.reverseRecOn generalizing taken with
  | nil => rfl
  | append_singleton ls l ih =>
    obtain ⟨hno, hopen⟩ := h l (by simp)
    have hlong : ¬ startsWith "/**" (dropBlanks l.toList) = true := by
      rw [startsWith_iff] at hopen ⊢
      exact fun hp => hopen (List.IsPrefix.trans (by decide) hp)
    have hcontains : ¬ (!taken.isEmpty && contains "*/" l.toList) = true := by
      rw [Bool.and_eq_true, not_and, contains_iff]
      exact fun _ => hno
    rw [List.reverse_append, List.reverse_singleton, List.singleton_append, List.cons_append,
      opening?]
    rw [if_neg hlong, if_neg hcontains, if_neg hopen, ih (fun x hx => h x (by simp [hx])) (by simp)]
    simp

open DocComment in
/-- The comment above a declaration is found whole. -/
theorem opening?_format {text : Option String} (h : IsFaithful text tags)
    (hne : said text tags ≠ []) (above : List String) :
    opening? [] ((format text tags "").reverse ++ above) = some (format text tags "") := by
  match hsaid : said text tags with
  | [] => exact absurd hsaid hne
  | [line] =>
    rw [format_of_one hsaid, List.reverse_singleton, List.singleton_append, opening?, if_pos]
    rw [startsWith_iff]
    refine ⟨(" " ++ String.ofList line ++ " */").toList, ?_⟩
    rw [dropBlanks_of_isTrimmedStart]
    · simp [String.toList_append]
    · simp [String.toList_append, IsTrimmedStart]
      decide
  | x :: y :: lines =>
    have hlines : ∀ l ∈ (x :: y :: lines).map (starred ""), ¬ ['*', '/'] <:+: l.toList ∧
        ¬ startsWith "/*" (dropBlanks l.toList) = true := by
      intro l hl
      obtain ⟨c, hc, rfl⟩ := List.mem_map.1 hl
      rw [← hsaid] at hc
      refine ⟨fun hi => h.sayable.not_infix hc ((infix_starred_iff (by decide)).1 hi), ?_⟩
      have hdrop : dropBlanks (starred "" c).toList =
          '*' :: (if c = [] then [] else ' ' :: c) := by
        rw [toList_starred (h.sayable.line hc).1]
        show dropBlanks ([' '] ++ _) = _
        rw [dropBlanks_append (by decide), dropBlanks_of_isTrimmedStart]
        rintro z ⟨⟩
        decide
      rw [hdrop, startsWith_iff]
      intro hp
      exact absurd (List.cons_prefix_cons.1 hp).1 (by decide)
    rw [format_of_many hsaid, List.reverse_append, List.reverse_append, List.reverse_singleton,
      List.reverse_singleton, List.singleton_append, List.cons_append, opening?]
    rw [if_neg (by decide), if_neg (by decide), if_neg (by decide), List.append_assoc,
      opening?_lines hlines (by simp), List.singleton_append, opening?, if_pos (by decide)]
    simp

open DocComment in
theorem trim_comment (lines : List (List Char)) :
    trim (comment "" lines) = comment "" lines := by
  have hstart : IsTrimmedStart (comment "" lines).toList := by
    rw [toList_comment]
    rintro c ⟨⟩
    decide
  have hend : IsTrimmedEnd (comment "" lines).toList := by
    have hlist : (comment "" lines).toList =
        ('/' :: '*' :: '*' :: body "" lines ++ ['*']) ++ ['/'] := by
      simp [toList_comment]
    rw [hlist]
    exact isTrimmedEnd_append (by rintro c ⟨⟩; decide) (by simp)
  rw [trim, trimChars_of_isTrimmed hstart hend, String.ofList_toList]

open DocComment in
theorem getLast?_format {text : Option String} (h : said text tags ≠ []) :
    ∃ init t, format text tags "" = init ++ [t] ∧
      endsWith "*/" (dropTrailingBlanks t.toList) = true := by
  have hends : ∀ a : String,
      endsWith "*/" (dropTrailingBlanks (a ++ " */").toList) = true := by
    intro a
    have hend : IsTrimmedEnd (a ++ " */").toList := by
      rw [String.toList_append]
      exact isTrimmedEnd_append (by rintro c ⟨⟩; decide) (by simp)
    rw [dropTrailingBlanks_of_isTrimmedEnd hend, endsWith_iff]
    exact ⟨(a ++ " ").toList, by simp [String.toList_append]⟩
  match hsaid : said text tags with
  | [] => exact absurd hsaid h
  | [line] => exact ⟨[], _, format_of_one hsaid, hends _⟩
  | x :: y :: lines => exact ⟨_, _, format_of_many hsaid, hends _⟩

/-- The lines do not end with the end of a comment. -/
def EndsOpen (before : List String) : Prop :=
  ∀ l ∈ before.getLast?, endsWith "*/" (dropTrailingBlanks l.toList) = false

theorem endsOpen_nil : EndsOpen [] := by rintro l ⟨⟩

theorem endsOpen_empty (before : List String) : EndsOpen (before ++ [""]) := by
  intro l hl
  obtain rfl : "" = l := by simpa using hl
  decide

open DocComment in
/-- The comment right above a line is the one that was written there. -/
theorem leadingDoc?_eq {text : Option String} (h : IsFaithful text tags) {before : List String}
    (hbefore : EndsOpen before) (after : List String) :
    leadingDoc? (before ++ (format text tags "" ++ after))
        (before.length + (format text tags "").length) =
      (docOf text tags "").map fun raw =>
        ⟨before.length, before.length + (format text tags "").length - 1, raw⟩ := by
  have habove : ((before ++ (format text tags "" ++ after)).take
      (before.length + (format text tags "").length)).reverse =
        (format text tags "").reverse ++ before.reverse := by
    rw [← List.append_assoc, List.take_left' (List.length_append ..), List.reverse_append]
  unfold leadingDoc? docOf
  dsimp only
  rw [habove]
  by_cases hne : said text tags = []
  · rw [format_of_nil hne, if_pos hne, List.reverse_nil, List.nil_append]
    split
    · rfl
    · next last _ hlast =>
      have hmem : before.getLast? = some last := by
        rw [← List.head?_reverse, hlast, List.head?_cons]
      rw [hbefore last hmem]
      rfl
  · obtain ⟨init, t, hformat, hends⟩ := getLast?_format hne
    have hopening := opening?_format h hne before.reverse
    have hunlines : trim (unlines (format text tags "")) =
        comment "" (said text tags) := by
      rw [unlines_format hne, String.empty_append, trim_comment]
    have hcons : (format text tags "").reverse ++ before.reverse =
        t :: (init.reverse ++ before.reverse) := by
      rw [hformat]
      simp
    rw [if_neg hne, hcons]
    dsimp only
    rw [if_pos hends, ← hcons, hopening, Option.map_some, Option.map_some, hunlines,
      Nat.add_sub_cancel]

/-! ## All declarations -/

/-- The comment above a declaration. -/
def messageComment (m : Message) : List String :=
  format m.description (messageTags m) ""

/-- All messages, each after an empty line. -/
def messageBlocks (ms : List Message) : List String :=
  ms.flatMap fun m => "" :: (messageComment m ++ messageCode m)

theorem messageBlocks_cons (m : Message) (ms : List Message) :
    messageBlocks (m :: ms) = "" :: (messageComment m ++ messageCode m) ++ messageBlocks ms :=
  List.flatMap_cons

/-- The place of the declaration of a message on the lines from `start` on. -/
def placeFrom (start : Nat) (m : Message) : Declaration :=
  ⟨m.name, start, start + (messageCode m).length - 1, .closed⟩

/-- The place of the declaration of a message whose lines begin after line `index`. -/
def placeOf (index : Nat) (m : Message) : Declaration :=
  let start := index + 1 + (messageComment m).length
  ⟨m.name, start, start + (messageCode m).length - 1, .closed⟩

/-- The line after those of a message. -/
def afterBlock (index : Nat) (m : Message) : Nat :=
  index + 1 + (messageComment m).length + (messageCode m).length

/-- The declarations of all messages, from line `index` on. -/
def places (index : Nat) : List Message → List Declaration
  | [] => []
  | m :: ms => placeOf index m :: places (afterBlock index m) ms

/-- The lines of the comments above the declarations. -/
def commentNumbers (index : Nat) : List Message → List Nat
  | [] => []
  | m :: ms => (List.range (messageComment m).length).map (index + 1 + ·) ++
    commentNumbers (afterBlock index m) ms

theorem length_messageBlocks_cons (index : Nat) (m : Message) (ms : List Message) :
    index + (messageBlocks (m :: ms)).length =
      afterBlock index m + (messageBlocks ms).length := by
  simp only [afterBlock, messageBlocks_cons, List.length_append, List.length_cons]
  omega

theorem skips_empty (b a : Int) : Skips (fun _ => True) (level b a) [""] (level b a) := by
  have := Skips.inline Inline.empty (by decide) b a (P := fun _ => True) trivial
  simpa [netBraces, netAngles] using this

theorem scanFrom_messageBlocks (h : ∀ m ∈ ms, m.Proper d) (index : Nat) (b a : Int)
    (rest : List String) :
    scanFrom index (level b a) none (messageBlocks ms ++ rest) =
      places index ms ++ scanFrom (index + (messageBlocks ms).length) (level b a) none rest := by
  induction ms generalizing index with
  | nil => rfl
  | cons m ms ih =>
    have hm := h m List.mem_cons_self
    have hcomment : Skips (fun _ => True) (level b a) (messageComment m) (level b a) :=
      (isFaithful_message hm).sayable.skips (by decide) trivial trivial
    have hlist : messageBlocks (m :: ms) ++ rest = ([""] ++ messageComment m) ++
        (messageCode m ++ (messageBlocks ms ++ rest)) := by
      simp [messageBlocks_cons]
    have hlength := length_messageBlocks_cons index m ms
    have hstart : index + ([""] ++ messageComment m).length =
        index + 1 + (messageComment m).length := by
      simp only [List.length_append, List.length_singleton]
      omega
    rw [hlist, scanFrom_skips ((skips_empty b a).append hcomment), hstart,
      scanFrom_messageCode hm _ rfl]
    have hmore := ih (fun x hx => h x (List.mem_cons_of_mem _ hx)) (afterBlock index m)
    unfold afterBlock at hmore
    rw [hmore]
    unfold afterBlock at hlength
    rw [← hlength]
    rfl

theorem sourceOf_eq (m : Message) (before after : List String) :
    sourceOf (before ++ (messageCode m ++ after)) (placeFrom before.length m) =
      (unlines (messageCode m)).toList := by
  have hne : 0 < (messageCode m).length := List.length_pos_iff.2 (messageCode_ne_nil m)
  have hcount : before.length + (messageCode m).length - 1 + 1 - before.length =
      (messageCode m).length := by
    omega
  unfold sourceOf placeFrom
  rw [hcount, List.drop_left, List.take_left]

theorem docLinesOf_eq (h : m.Proper d) {before : List String} (hbefore : EndsOpen before)
    (after : List String) :
    docLinesOf (leadingDoc? (before ++ (messageComment m ++ after))
        (before.length + (messageComment m).length)) =
      (List.range (messageComment m).length).map (before.length + ·) := by
  unfold messageComment
  rw [leadingDoc?_eq (isFaithful_message h) hbefore after]
  unfold docOf
  split
  · next hsaid =>
    rw [format_of_nil hsaid]
    rfl
  · next hsaid =>
    have hsome : 0 < (format m.description (messageTags m) "").length :=
      List.length_pos_iff.2 (format_ne_nil hsaid)
    have hcount : before.length + (format m.description (messageTags m) "").length - 1 +
        1 - before.length = (format m.description (messageTags m) "").length := by
      omega
    simp only [Option.map_some, docLinesOf]
    rw [hcount]

/-- What has been read when one more message is. -/
def progressAfter (p : Progress) (index : Nat) (m : Message) : Progress :=
  { p with
    seen := m.name :: p.seen
    messages := p.messages ++ [m]
    types := p.types ++ [(m.name, m.name)]
    docLines := p.docLines ++ (List.range (messageComment m).length).map (index + ·) }

/-- One more message is read. -/
theorem readOne_eq (h : m.Proper d) (hseen : m.name ∉ p.seen)
    (hnew : m.name ∉ p.messages.map (·.name)) {before : List String} (hbefore : EndsOpen before)
    (after : List String) :
    readOne d (before ++ (messageComment m ++ (messageCode m ++ after))) p
        (placeFrom (before.length + (messageComment m).length) m) =
      .ok (progressAfter p before.length m) := by
  let start := before.length + (messageComment m).length
  obtain ⟨ts, htokens, hmeaning⟩ := exists_meaning h (start + 1)
  have hraw : (leadingDoc? (before ++ (messageComment m ++ (messageCode m ++ after)))
      start).map (·.raw) = docOf m.description (messageTags m) "" := by
    show (leadingDoc? _ (before.length + (messageComment m).length)).map _ = _
    unfold messageComment
    rw [leadingDoc?_eq (isFaithful_message h) hbefore, Option.map_map]
    simp [Function.comp_def]
  have hsource : sourceOf (before ++ (messageComment m ++ (messageCode m ++ after)))
      (placeFrom start m) = (unlines (messageCode m)).toList := by
    have := sourceOf_eq m (before ++ messageComment m) after
    rwa [List.append_assoc, List.length_append] at this
  have hlines := docLinesOf_eq h hbefore (messageCode m ++ after)
  have hany : (p.messages.any fun x => decide (x.name = m.name)) = false := by
    rw [Bool.eq_false_iff]
    intro hany
    obtain ⟨x, hx, hname⟩ := List.any_eq_true.1 hany
    exact hnew (of_decide_eq_true hname ▸ List.mem_map_of_mem hx)
  unfold readOne
  rw [if_neg (by simp [terminated, placeFrom]), if_neg (by simpa [placeFrom] using hseen)]
  dsimp only
  rw [hsource]
  rw [show tokenizeFrom ((placeFrom start m).start + 1) _ = .ok ts from htokens]
  show (meaning d _ ((leadingDoc? _ start).map (·.raw)) ts >>= _) = _
  rw [hraw, hmeaning]
  show Progress.add p _ _ (.message m) = _
  unfold Progress.add
  dsimp only
  rw [if_neg (by simpa using hany)]
  simp only [progressAfter, Except.ok.injEq, Progress.mk.injEq]
  exact ⟨rfl, trivial, rfl, trivial, by rw [← hlines]; rfl⟩

/-- The messages of the lines, read one after the other. -/
theorem foldlM_readOne (h : ∀ m ∈ ms, m.Proper d) (hnodup : (ms.map (·.name)).Nodup)
    (hseen : ∀ m ∈ ms, m.name ∉ p.seen) (hnew : ∀ m ∈ ms, m.name ∉ p.messages.map (·.name))
    (before after : List String) :
    ∃ q, (places before.length ms).foldlM (readOne d (before ++ messageBlocks ms ++ after)) p =
        .ok q ∧ q.messages = p.messages ++ ms ∧ q.aliases = p.aliases ∧
      q.docLines = p.docLines ++ commentNumbers before.length ms := by
  induction ms generalizing p before with
  | nil => exact ⟨p, rfl, by simp, rfl, by simp [commentNumbers]⟩
  | cons m ms ih =>
    rw [List.map_cons, List.nodup_cons] at hnodup
    have hfirst := readOne_eq (h m List.mem_cons_self) (hseen m List.mem_cons_self)
      (hnew m List.mem_cons_self) (endsOpen_empty before) (messageBlocks ms ++ after)
    rw [List.length_append, List.length_singleton] at hfirst
    have hother : ∀ x ∈ ms, x.name ≠ m.name := fun x hx heq =>
      hnodup.1 (heq ▸ List.mem_map_of_mem hx)
    let next := before ++ "" :: (messageComment m ++ messageCode m)
    have hnext : next.length = afterBlock before.length m := by
      simp only [next, afterBlock, List.length_append, List.length_cons]
      omega
    obtain ⟨q, hq, hmessages, haliases, hlines⟩ := ih
      (fun x hx => h x (List.mem_cons_of_mem _ hx)) hnodup.2
      (p := progressAfter p (before.length + 1) m)
      (fun x hx => by
        simpa [progressAfter, hother x hx] using hseen x (List.mem_cons_of_mem _ hx))
      (fun x hx => by
        simpa [progressAfter, hother x hx] using hnew x (List.mem_cons_of_mem _ hx)) next
    have hlist : before ++ messageBlocks (m :: ms) ++ after =
        before ++ [""] ++ (messageComment m ++ (messageCode m ++ (messageBlocks ms ++ after))) := by
      simp [messageBlocks_cons]
    have hlist' : next ++ messageBlocks ms ++ after =
        before ++ [""] ++ (messageComment m ++ (messageCode m ++ (messageBlocks ms ++ after))) := by
      simp [next]
    rw [hlist', hnext] at hq
    refine ⟨q, ?_, by simpa [progressAfter] using hmessages, haliases, ?_⟩
    · rw [hlist, places, List.foldlM_cons]
      show (readOne d _ p (placeFrom (before.length + 1 + (messageComment m).length) m) >>= _) = _
      rw [hfirst]
      exact hq
    · rw [hlines, hnext, commentNumbers]
      show p.docLines ++ _ ++ _ = _
      rw [List.append_assoc]

/-- No alias is left to resolve. -/
theorem table_of_foldlM {lines : List String} {ds : List Declaration}
    (h : ds.foldlM (readOne d lines) {} = .ok p) (haliases : p.aliases = []) :
    table d lines ds = .ok ⟨p.messages, p.types, [], p.docLines⟩ := by
  have hresolve : resolveAll d p = .ok [] := by
    unfold resolveAll
    rw [haliases]
    rfl
  unfold table
  rw [h]
  show (resolveAll d p >>= _) = _
  rw [hresolve]
  rfl

/-- The table of the declarations is the messages in their order. -/
theorem exists_table (h : ∀ m ∈ ms, m.Proper d) (hnodup : (ms.map (·.name)).Nodup)
    (before after : List String) :
    ∃ declared, table d (before ++ messageBlocks ms ++ after) (places before.length ms) =
        .ok declared ∧ declared.messages = ms ∧ declared.aliases = [] ∧
      declared.docLines = commentNumbers before.length ms := by
  obtain ⟨q, hq, hmessages, haliases, hlines⟩ := foldlM_readOne (p := {}) h hnodup (by simp)
    (by simp) before after
  exact ⟨_, table_of_foldlM hq haliases, by simpa using hmessages, rfl, by simpa using hlines⟩

/-! ## The lines of one message -/

theorem scan_message (h : m.Proper d) :
    scan (messageComment m ++ messageCode m) = [placeFrom (messageComment m).length m] := by
  have hcomment : Skips (fun _ => True) (level 0 0) (messageComment m) (level 0 0) :=
    (isFaithful_message h).sayable.skips (by decide) trivial trivial
  have houter : (level 0 0).insideText = false := rfl
  have hcode := scanFrom_messageCode h (messageComment m).length houter []
  rw [List.append_nil] at hcode
  show scanFrom 0 (level 0 0) none (messageComment m ++ messageCode m) = _
  rw [scanFrom_skips hcomment, Nat.zero_add, hcode]
  rfl

theorem head?_messageCode (h : isFullName m.name = true) :
    (messageCode m).head?.bind declaredName? = some m.name := by
  unfold messageCode
  split
  · rw [List.head?_cons, Option.bind_some, declaredName?_messageHead h]
  · have hname := declaredName?_messageHead h ""
    rw [String.append_empty] at hname
    rw [List.head?_cons, Option.bind_some, hname]

theorem leadingDoc?_message (h : m.Proper d) :
    leadingDoc? (messageComment m ++ messageCode m) (messageComment m).length =
      if messageComment m = [] then none
      else some ⟨0, (messageComment m).length - 1, unlines (messageComment m)⟩ := by
  have hdoc := leadingDoc?_eq (isFaithful_message h) endsOpen_nil (messageCode m)
  rw [List.nil_append, List.length_nil, Nat.zero_add] at hdoc
  unfold messageComment
  rw [hdoc]
  unfold docOf
  by_cases hsaid : said m.description (messageTags m) = []
  · rw [if_pos hsaid, format_of_nil hsaid]
    rfl
  · rw [if_neg hsaid, if_neg (format_ne_nil hsaid), unlines_format hsaid,
      String.empty_append]
    rfl

theorem table_message (h : m.Proper d) :
    table d (messageComment m ++ messageCode m) [placeFrom (messageComment m).length m] =
      .ok ⟨[m], [(m.name, m.name)], [], List.range (messageComment m).length⟩ := by
  have hread := readOne_eq h (p := {}) (by simp) (by simp) endsOpen_nil []
  rw [List.nil_append, List.append_nil, List.length_nil, Nat.zero_add] at hread
  have hfold : [placeFrom (messageComment m).length m].foldlM
      (readOne d (messageComment m ++ messageCode m)) {} = .ok (progressAfter {} 0 m) := by
    rw [List.foldlM_cons, hread]
    rfl
  rw [table_of_foldlM hfold rfl]
  simp [progressAfter]

/-- The lines that declare a message hold one declaration, from the line that names its type to the
last one, the lines before it are its comment, and what it declares is the message. This is so of
every version that is not too long to be written, and with a longer one there are no lines. -/
theorem messageLines_declares (d : Nat) (m : Message) (h : m.Declarable d) :
    (m.version < Number.digitLimit → ∃ comment code, messageLines m = .ok (comment ++ code) ∧
      code.head?.bind declaredName? = some m.name ∧
      scan (comment ++ code) = [⟨m.name, comment.length, (comment ++ code).length - 1, .closed⟩] ∧
      leadingDoc? (comment ++ code) comment.length =
        (if comment = [] then none else some ⟨0, comment.length - 1, unlines comment⟩) ∧
      table d (comment ++ code) (scan (comment ++ code)) =
        .ok ⟨[m], [(m.name, m.name)], [], List.range comment.length⟩) ∧
    (Number.digitLimit ≤ m.version → messageLines m = .error .longNumber) := by
  refine ⟨fun hshort => ?_, messageLines_of_long h⟩
  have h : m.Proper d := ⟨h, hshort⟩
  refine ⟨messageComment m, messageCode m, messageLines_eq h, head?_messageCode h.name, ?_,
    leadingDoc?_message h, ?_⟩
  · rw [scan_message h, List.length_append]
    rfl
  · rw [scan_message h, table_message h]

/-- A message with brackets in quotes, in types and in the comments of its fields. -/
def crowded : Message :=
  { name := "Crowded"
    kind := .state
    version := 12
    description := some r"type Other = Event<'Other', {

  @see it"
    fields := [
      { name := "it's", type := r#"Map<"}>;", { a: (string | null)[]; b: A<B<c>> }>"#
        required := false, description := some r"Ends here: }>;"
        default := .object [("a", .array [.text r"}>;", .null])] },
      { name := "$id", type := "string", required := true }] }

theorem declarable_crowded : crowded.Declarable 2 where
  name := by decide
  fields := by
    intro f hf
    simp only [crowded, List.mem_cons, List.not_mem_nil, or_false] at hf
    rcases hf with rfl | rfl
    · refine ⟨by decide, by decide +kernel, ?_, by simp, by decide,
        by decide, by decide⟩
      rintro _ ⟨⟩
      decide
    · exact ⟨by decide, by decide +kernel, by simp, by simp, by decide,
        by decide, by decide⟩
  distinct := by decide
  description := by
    rintro _ ⟨⟩
    decide
  start := by simp [crowded]
  version := by decide

theorem messageLines_declares_crowded :
    crowded.Declarable 2 ∧ crowded.version < Number.digitLimit ∧
    ∃ comment code, messageLines crowded = .ok (comment ++ code) ∧
      code.head?.bind declaredName? = some "Crowded" ∧
      scan (comment ++ code) =
        [⟨"Crowded", comment.length, (comment ++ code).length - 1, .closed⟩] ∧
      leadingDoc? (comment ++ code) comment.length =
        (if comment = [] then none else some ⟨0, comment.length - 1, unlines comment⟩) ∧
      table 2 (comment ++ code) (scan (comment ++ code)) =
        .ok ⟨[crowded], [("Crowded", "Crowded")], [], List.range comment.length⟩ :=
  have hshort : crowded.version < Number.digitLimit := by decide +kernel
  ⟨declarable_crowded, hshort, (messageLines_declares 2 crowded declarable_crowded).1 hshort⟩

/-- The smallest version that is too long to be written. -/
def aged : Message :=
  { name := "Aged", kind := .event, version := Number.digitLimit, fields := [] }

theorem declarable_aged (d : Nat) : aged.Declarable d where
  name := by decide
  fields := List.forall_mem_nil _
  distinct := List.nodup_nil
  description := nofun
  start := fun _ => nofun
  version := Int.natCast_nonneg _

theorem messageLines_aged : aged.Declarable 0 ∧ messageLines aged = .error .longNumber :=
  ⟨declarable_aged 0, messageLines_of_long (declarable_aged 0) (Int.le_refl _)⟩

/-! ## What is left of the lines -/

open Extraction (blankLines declarationLines)

theorem blankLines_append (taken : List Nat) (a b : List String) :
    blankLines taken (a ++ b) =
      blankLines taken a ++
        (b.zipIdx a.length).map fun (line, i) => if taken.contains i then "" else line := by
  simp [blankLines, List.zipIdx_append]

theorem map_zipIdx_of_mem {taken : List Nat} {lines : List String} {n : Nat}
    (h : ∀ i, n ≤ i → i < n + lines.length → lines[i - n]? = some "" ∨ i ∈ taken) :
    ((lines.zipIdx n).map fun (line, i) => if taken.contains i then "" else line) =
      List.replicate lines.length "" := by
  induction lines generalizing n with
  | nil => rfl
  | cons line lines ih =>
    rw [List.zipIdx_cons, List.map_cons, ih fun i hi hlt => ?_, List.length_cons,
      List.replicate_succ]
    · congr 1
      rcases h n (Nat.le_refl _) (by simp) with hline | hmem
      · rw [Nat.sub_self] at hline
        obtain rfl : line = "" := by simpa using hline
        simp
      · simp [hmem]
    · have := h i (by omega) (by rw [List.length_cons]; omega)
      have hsub : i - n = (i - (n + 1)) + 1 := by omega
      rwa [hsub, List.getElem?_cons_succ] at this

theorem map_zipIdx_of_not_mem {taken : List Nat} {lines : List String} {n : Nat}
    (h : ∀ i, n ≤ i → i < n + lines.length → i ∉ taken) :
    ((lines.zipIdx n).map fun (line, i) => if taken.contains i then "" else line) = lines := by
  induction lines generalizing n with
  | nil => rfl
  | cons line lines ih =>
    rw [List.zipIdx_cons, List.map_cons, ih fun i hi hlt =>
      h i (by omega) (by rw [List.length_cons]; omega)]
    have hno := h n (Nat.le_refl _) (by simp)
    simp [hno]

/-- The lines that the declarations of all messages take up, with the comments above them. -/
def takenBy (index : Nat) (ms : List Message) : List Nat :=
  (places index ms).flatMap (fun p => (List.range (p.stop + 1 - p.start)).map (p.start + ·)) ++
    commentNumbers index ms

theorem mem_takenBy_cons {index : Nat} {m : Message} :
    i ∈ takenBy index (m :: ms) ↔
      (index < i ∧ i < afterBlock index m) ∨ i ∈ takenBy (afterBlock index m) ms := by
  have hne : 0 < (messageCode m).length := List.length_pos_iff.2 (messageCode_ne_nil m)
  have hcode : i ∈ (List.range ((placeOf index m).stop + 1 - (placeOf index m).start)).map
      ((placeOf index m).start + ·) ↔
        index + 1 + (messageComment m).length ≤ i ∧ i < afterBlock index m := by
    simp only [placeOf, afterBlock, List.mem_map, List.mem_range]
    constructor
    · rintro ⟨j, hj, rfl⟩
      omega
    · rintro ⟨hle, hlt⟩
      exact ⟨i - (index + 1 + (messageComment m).length), by omega, by omega⟩
  have hcomment : i ∈ (List.range (messageComment m).length).map (index + 1 + ·) ↔
      index < i ∧ i < index + 1 + (messageComment m).length := by
    simp only [List.mem_map, List.mem_range]
    constructor
    · rintro ⟨j, hj, rfl⟩
      omega
    · rintro ⟨hlt, hle⟩
      exact ⟨i - (index + 1), by omega, by omega⟩
  have hafter : index + 1 + (messageComment m).length ≤ afterBlock index m := by
    unfold afterBlock
    omega
  simp only [takenBy, places, commentNumbers, List.flatMap_cons, List.mem_append, hcode, hcomment]
  constructor
  · rintro ((⟨hle, hlt⟩ | h) | ⟨hlt, hle⟩ | h)
    · exact Or.inl ⟨by omega, hlt⟩
    · exact Or.inr (Or.inl h)
    · exact Or.inl ⟨hlt, by omega⟩
    · exact Or.inr (Or.inr h)
  · rintro (⟨hlt, hle⟩ | h | h)
    · by_cases hi : i < index + 1 + (messageComment m).length
      · exact Or.inr (Or.inl ⟨hlt, hi⟩)
      · exact Or.inl (Or.inl ⟨by omega, hle⟩)
    · exact Or.inl (Or.inr h)
    · exact Or.inr (Or.inr h)

theorem lt_of_mem_takenBy {index : Nat} (h : i ∈ takenBy index ms) :
    index < i ∧ i < index + (messageBlocks ms).length := by
  induction ms generalizing index with
  | nil => cases h
  | cons m ms ih =>
    rw [length_messageBlocks_cons]
    have hafter : index < afterBlock index m := by
      unfold afterBlock
      omega
    rcases mem_takenBy_cons.1 h with ⟨hlt, hle⟩ | h
    · exact ⟨hlt, by omega⟩
    · obtain ⟨hlt, hle⟩ := ih h
      exact ⟨by omega, hle⟩

/-- The lines of the messages are taken up, but for the empty ones between them. -/
theorem empty_or_mem_takenBy {index : Nat} (hle : index ≤ i)
    (hlt : i < index + (messageBlocks ms).length) :
    (messageBlocks ms)[i - index]? = some "" ∨ i ∈ takenBy index ms := by
  induction ms generalizing index with
  | nil => exact absurd hlt (by simp [messageBlocks]; omega)
  | cons m ms ih =>
    rw [length_messageBlocks_cons] at hlt
    by_cases hfirst : i = index
    · left
      rw [hfirst, Nat.sub_self, messageBlocks_cons]
      rfl
    by_cases hblock : i < afterBlock index m
    · exact Or.inr (mem_takenBy_cons.2 (Or.inl ⟨by omega, hblock⟩))
    · rcases ih (by omega) hlt with hline | hmem
      · left
        have hlength : ("" :: (messageComment m ++ messageCode m)).length =
            afterBlock index m - index := by
          simp only [afterBlock, List.length_append, List.length_cons]
          omega
        have hsub : i - index - ("" :: (messageComment m ++ messageCode m)).length =
            i - afterBlock index m := by
          rw [hlength]
          unfold afterBlock at hblock ⊢
          omega
        rw [messageBlocks_cons, List.getElem?_append_right (by rw [hlength]; omega), hsub]
        exact hline
      · exact Or.inr (mem_takenBy_cons.2 (Or.inr hmem))

/-- Empty lines are left where the messages were declared. -/
theorem blankLines_eq (before after : List String) (ms : List Message) :
    blankLines (takenBy before.length ms) (before ++ messageBlocks ms ++ after) =
      before ++ List.replicate (messageBlocks ms).length "" ++ after := by
  have hbefore : blankLines (takenBy before.length ms) before = before :=
    map_zipIdx_of_not_mem fun i _ hlt hmem => by
      have := (lt_of_mem_takenBy hmem).1
      omega
  rw [blankLines_append, blankLines_append, hbefore, map_zipIdx_of_mem
    fun i hle hlt => empty_or_mem_takenBy hle hlt, map_zipIdx_of_not_mem]
  intro i hle _ hmem
  have := (lt_of_mem_takenBy hmem).2
  rw [List.length_append] at hle
  omega

end EventFlow.Emission
