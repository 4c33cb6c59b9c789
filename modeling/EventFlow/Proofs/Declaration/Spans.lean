import EventFlow.Declaration.Basic
import EventFlow.Proofs.Text.Blank
import EventFlow.Proofs.Token.Spelling

/-! The lines that declarations take up.

`Spans lines ds` says which declarations a text has, without a search: where each starts and ends,
that no two of them share a line, and that every line on which one can start is the start of one.
Whether one can start is decided by what is open before the line, `inForce lines ds i`:

    state of the declaration that is open there, from its first line on
    state of the lines outside of all declarations, if none is open

The search goes line by line, and the declarations found so far are the spans of the lines gone by
(`Scanned`). -/

namespace EventFlow.Declaration

open Text

variable {line name : String} {ds' : List Declaration} {state : LineState}

/-! ## The first line of a declaration -/

/-- The line begins with `type` and a name, or with `export` before them. -/
def Declares (line name : String) : Prop :=
  ∃ mark blanks rest, line.toList = mark ++ ("type".toList ++ (blanks ++ (name.toList ++ rest))) ∧
    (mark = [] ∨ ∃ b, b ≠ [] ∧ b.all isBlank = true ∧ mark = "export".toList ++ b) ∧
    blanks ≠ [] ∧ blanks.all isBlank = true ∧
    (∃ c w, name.toList = c :: w ∧ isNameStart c = true ∧ w.all isNamePart = true) ∧
    ∀ c ∈ rest.head?, isNamePart c = false

theorem keyword?_eq_some_iff {word : String} {cs rest : List Char} :
    keyword? word cs = some rest ↔
      (∃ b, b ≠ [] ∧ b.all isBlank = true ∧ cs = word.toList ++ (b ++ rest)) ∧
        IsTrimmedStart rest := by
  unfold keyword?
  constructor
  · intro h
    split at h
    · next c more hstrip =>
      split at h
      · next hc =>
        cases h
        obtain ⟨b, r, rfl, hb, hr, hdrop⟩ := exists_blanks more
        rw [hdrop]
        refine ⟨⟨c :: b, by simp, by rw [List.all_cons, hc, hb]; rfl, ?_⟩, hr⟩
        exact stripStart_eq_some_iff.1 hstrip
      · cases h
    · cases h
  · rintro ⟨⟨b, hne, hb, rfl⟩, hrest⟩
    obtain ⟨c, b, rfl⟩ := List.exists_cons_of_ne_nil hne
    rw [List.all_cons, Bool.and_eq_true] at hb
    have hstrip : stripStart word.toList (word.toList ++ (c :: b ++ rest)) =
        some (c :: (b ++ rest)) := stripStart_eq_some_iff.2 rfl
    simp only [hstrip, hb.1, if_true, dropBlanks_append hb.2,
      dropBlanks_of_isTrimmedStart hrest]

theorem isTrimmedStart_of_isNameStart {c : Char} (h : isNameStart c = true) (rest : List Char) :
    IsTrimmedStart (c :: rest) := by
  rintro _ ⟨⟩
  exact (Token.isNamePart_facts (Token.isNamePart_of_isNameStart h)).1

/-- What a line says before its `type`. -/
theorem keyword?_export (h : Declares line name) :
    ∃ b rest, b ≠ [] ∧ b.all isBlank = true ∧
      (keyword? "export" line.toList).getD line.toList =
        "type".toList ++ (b ++ (name.toList ++ rest)) ∧
      (∀ c ∈ rest.head?, isNamePart c = false) := by
  obtain ⟨mark, b, rest, hline, hmark, hne, hb, -, hrest⟩ := h
  refine ⟨b, rest, hne, hb, ?_, hrest⟩
  rcases hmark with rfl | ⟨b', hne', hb', rfl⟩
  · -- a line that begins with one word does not begin with the other
    rw [List.nil_append] at hline
    cases hexport : keyword? "export" line.toList with
    | none => exact hline
    | some more =>
      obtain ⟨⟨b', -, -, hline'⟩, -⟩ := keyword?_eq_some_iff.1 hexport
      have hhead := congrArg List.head? (hline.symm.trans hline')
      cases hhead
  · have hexport : keyword? "export" line.toList =
        some ("type".toList ++ (b ++ (name.toList ++ rest))) := by
      refine keyword?_eq_some_iff.2 ⟨⟨b', hne', hb', hline.trans (List.append_assoc _ _ _)⟩, ?_⟩
      exact isTrimmedStart_of_isNameStart (by decide) _
    rw [hexport, Option.getD_some]

theorem declaredName?_eq_some_iff : declaredName? line = some name ↔ Declares line name := by
  unfold declaredName?
  dsimp only
  constructor
  · intro h
    split at h
    · next c more hkeyword =>
      split at h
      · next hc =>
        cases h
        obtain ⟨⟨b, hne, hb, hline⟩, -⟩ := keyword?_eq_some_iff.1 hkeyword
        have hsplit := List.takeWhile_append_dropWhile (p := isNamePart) (l := more)
        have hrest : ∀ d ∈ (more.dropWhile isNamePart).head?, isNamePart d = false := by
          intro d hd
          have hhead := List.head?_dropWhile_not isNamePart more
          rw [Option.mem_def.1 hd] at hhead
          simpa using hhead
        have hword : c :: more = (String.ofList (c :: more.takeWhile isNamePart)).toList ++
            more.dropWhile isNamePart := by
          rw [String.toList_ofList, List.cons_append, hsplit]
        rw [hword] at hline
        have hname : ∃ d w, (String.ofList (c :: more.takeWhile isNamePart)).toList = d :: w ∧
            isNameStart d = true ∧ w.all isNamePart = true :=
          ⟨c, more.takeWhile isNamePart, String.toList_ofList, hc, List.all_takeWhile⟩
        cases hexport : keyword? "export" line.toList with
        | none =>
          rw [hexport, Option.getD_none] at hline
          exact ⟨[], b, _, hline, Or.inl rfl, hne, hb, hname, hrest⟩
        | some rest =>
          obtain ⟨⟨b', hne', hb', hline'⟩, -⟩ := keyword?_eq_some_iff.1 hexport
          rw [hexport, Option.getD_some] at hline
          rw [hline, ← List.append_assoc] at hline'
          exact ⟨_, b, _, hline', Or.inr ⟨b', hne', hb', rfl⟩, hne, hb, hname, hrest⟩
      · cases h
    · cases h
  · intro h
    obtain ⟨b, rest, hne, hb, hline, hrest⟩ := keyword?_export h
    obtain ⟨-, -, -, -, -, -, -, ⟨c, w, hname, hc, hw⟩, -⟩ := h
    have htrim := isTrimmedStart_of_isNameStart hc (w ++ rest)
    rw [hline, hname, List.cons_append, keyword?_eq_some_iff.2 ⟨⟨b, hne, hb, rfl⟩, htrim⟩]
    have htake : (w ++ rest).takeWhile isNamePart = w := by
      rw [List.takeWhile_append_of_pos (List.all_eq_true.1 hw)]
      cases rest with
      | nil => simp
      | cons d rest => simp [hrest d rfl]
    simp only [hc, if_true, htake, ← hname, String.ofList_toList]

/-! ## What is open before a line -/

/-- The declaration has begun before line `i` and is not closed before it. -/
def isOpenBefore (d : Declaration) (i : Nat) : Bool :=
  d.start < i && i ≤ if d.ending = .closed then d.stop else d.stop + 1

def covers (d : Declaration) (i : Nat) : Bool := d.start ≤ i && i ≤ d.stop

theorem isOpenBefore_iff {d : Declaration} {i : Nat} : d.isOpenBefore i = true ↔
    d.start < i ∧ (i ≤ d.stop ∨ d.ending ≠ .closed ∧ i = d.stop + 1) := by
  by_cases h : d.ending = .closed <;> simp [isOpenBefore, h]
  omega

/-- The state before line `i` of a declaration that starts on line `start`. -/
def within (lines : List String) (start i : Nat) : LineState :=
  ((lines.take i).drop start).foldl LineState.consume {}

/-- The state before line `i` of the lines that are in no declaration. -/
def outside (lines : List String) (ds : List Declaration) (i : Nat) : LineState :=
  ((lines.take i).zipIdx.filter fun l => !ds.any (·.covers l.2)).foldl (fun s l => s.consume l.1) {}

/-- The state that decides whether a declaration can start on line `i`. -/
def inForce (lines : List String) (ds : List Declaration) (i : Nat) : LineState :=
  match ds.find? (·.isOpenBefore i) with
  | some d => within lines d.start i
  | none => outside lines ds i

section States

variable {lines : List String} {ds : List Declaration} {d e : Declaration} {start i : Nat}

theorem within_append (hi : i ≤ lines.length) (more : List String) :
    within (lines ++ more) start i = within lines start i := by
  rw [within, List.take_append_of_le_length hi, within]

theorem within_snoc (h : start ≤ lines.length) (line : String) :
    within (lines ++ [line]) start (lines.length + 1) =
      (within lines start lines.length).consume line := by
  have hall : (lines ++ [line]).take (lines.length + 1) = lines ++ [line] :=
    List.take_of_length_le (by simp)
  rw [within, within, hall, List.take_length, List.drop_append_of_le_length h, List.foldl_append]
  rfl

theorem outside_append (hi : i ≤ lines.length) (more : List String) :
    outside (lines ++ more) ds i = outside lines ds i := by
  rw [outside, List.take_append_of_le_length hi, outside]

theorem outside_snoc (line : String) :
    outside (lines ++ [line]) ds (lines.length + 1) =
      if ds.any (·.covers lines.length) then outside lines ds lines.length
      else (outside lines ds lines.length).consume line := by
  have hall : (lines ++ [line]).take (lines.length + 1) = lines ++ [line] :=
    List.take_of_length_le (by simp)
  rw [outside, outside, hall, List.take_length, List.zipIdx_append, List.filter_append,
    List.foldl_append]
  cases hcovers : ds.any (·.covers lines.length) <;> simp [hcovers]

/-- The lines outside are those that no declaration covers. -/
theorem outside_congr (h : ∀ j < i, ds.any (·.covers j) = ds'.any (·.covers j)) :
    outside lines ds i = outside lines ds' i := by
  have hfilter : (lines.take i).zipIdx.filter (fun l => !ds.any (·.covers l.2)) =
      (lines.take i).zipIdx.filter fun l => !ds'.any (·.covers l.2) := by
    refine List.filter_congr ?_
    rintro ⟨line, j⟩ hmem
    have hj : j < i := by
      have := List.snd_lt_of_mem_zipIdx hmem
      simp only [List.length_take] at this
      omega
    rw [h j hj]
  rw [outside, outside, hfilter]

theorem inForce_append (hi : i ≤ lines.length) (more : List String) :
    inForce (lines ++ more) ds i = inForce lines ds i := by
  unfold inForce
  split
  · exact within_append hi more
  · exact outside_append hi more

theorem inForce_congr
    (hopen : (ds.find? (·.isOpenBefore i)).map (·.start) =
      (ds'.find? (·.isOpenBefore i)).map (·.start))
    (hcovers : ∀ j < i, ds.any (·.covers j) = ds'.any (·.covers j)) :
    inForce lines ds i = inForce lines ds' i := by
  unfold inForce
  cases hd : ds.find? (·.isOpenBefore i) with
  | none =>
    rw [hd, Option.map_none, eq_comm, Option.map_eq_none_iff] at hopen
    rw [hopen]
    exact outside_congr hcovers
  | some d =>
    rw [hd, Option.map_some, eq_comm, Option.map_eq_some_iff] at hopen
    obtain ⟨d', hd', hstart⟩ := hopen
    rw [hd']
    exact congrArg (within lines · i) hstart.symm

/-- A declaration has no part in what is open before its first line. -/
theorem inForce_snoc_of_le (h : i ≤ d.start) :
    inForce lines (ds ++ [d]) i = inForce lines ds i := by
  have hopen : d.isOpenBefore i = false := by simp [isOpenBefore]; omega
  refine inForce_congr (by simp [hopen]) fun j hj => ?_
  have hcovers : d.covers j = false := by simp [covers]; omega
  simp [hcovers]

/-- What the last declaration does from line `i` on has no part in what is open before it. -/
theorem inForce_snoc_congr (hstart : d.start = e.start)
    (hopen : d.isOpenBefore i = e.isOpenBefore i) (hcovers : ∀ j < i, d.covers j = e.covers j) :
    inForce lines (ds ++ [d]) i = inForce lines (ds ++ [e]) i := by
  refine inForce_congr ?_ fun j hj => by simp [hcovers j hj]
  rw [List.find?_append, List.find?_append]
  cases ds.find? (·.isOpenBefore i) with
  | some d' => rfl
  | none => cases h : e.isOpenBefore i <;> simp [hopen, h, hstart]

/-- The declaration that is open before a line, when those before it are not. -/
theorem inForce_snoc_of_open (hds : ∀ e ∈ ds, e.isOpenBefore i = false)
    (hd : d.isOpenBefore i = true) : inForce lines (ds ++ [d]) i = within lines d.start i := by
  have hnone : ds.find? (·.isOpenBefore i) = none := by simpa using hds
  simp [inForce, List.find?_append, hnone, hd]

theorem inForce_of_shut (hds : ∀ e ∈ ds, e.isOpenBefore i = false) :
    inForce lines ds i = outside lines ds i := by
  have hnone : ds.find? (·.isOpenBefore i) = none := by simpa using hds
  rw [inForce, hnone]

end States

/-! ## Spans -/

/-- A declaration takes up the lines from its start to its stop. -/
structure IsSpan (lines : List String) (d : Declaration) : Prop where
  start_le : d.start ≤ d.stop
  stop_lt : d.stop < lines.length
  named : ∃ line ∈ lines[d.start]?, Declares line d.name
  /-- It is closed by its last line and by none before, or by no line at all. -/
  closes_iff : ∀ i, d.start ≤ i → i ≤ d.stop → ∀ line ∈ lines[i]?,
    (within lines d.start (i + 1)).closes line = true ↔ d.ending = .closed ∧ i = d.stop

/-- The declarations of a text. -/
structure Spans (lines : List String) (ds : List Declaration) : Prop where
  isSpan : ∀ d ∈ ds, IsSpan lines d
  ordered : ds.Pairwise (·.stop < ·.start)
  /-- Only the last declaration can go on to the end of the text. -/
  unterminated : ∀ d ∈ ds, d.terminated = false →
    ds.getLast? = some d ∧ d.stop + 1 = lines.length
  /-- A declaration that is cut off ends on the line before the next one. -/
  cutOff : ∀ d ∈ ds, d.ending = .cutOff → ∃ e ∈ ds, e.start = d.stop + 1
  /-- A line starts a declaration iff it reads like one and no text or comment is open. -/
  starts_iff : ∀ i, ∀ line ∈ lines[i]?, (∃ d ∈ ds, d.start = i) ↔
    (∃ name, Declares line name) ∧ (inForce lines ds i).insideText = false

section Spans

variable {lines : List String} {ds : List Declaration} {d e : Declaration}

theorem mem_getElem?_snoc {l : String} {i : Nat} (h : l ∈ (lines ++ [line])[i]?) :
    l ∈ lines[i]? ∨ i = lines.length ∧ l = line := by
  rw [Option.mem_def, List.getElem?_append] at h
  split at h
  · exact Or.inl h
  · obtain ⟨hi, rfl⟩ := List.getElem?_eq_some_iff.1 h
    simp only [List.length_singleton] at hi
    exact Or.inr ⟨by omega, by simp⟩

theorem lt_of_mem_getElem? {l : String} {i : Nat} (h : l ∈ lines[i]?) : i < lines.length :=
  (List.getElem?_eq_some_iff.1 h).1

theorem IsSpan.named_append (h : IsSpan lines d) (line : String) :
    ∃ l ∈ (lines ++ [line])[d.start]?, Declares l d.name := by
  obtain ⟨l, hl, hname⟩ := h.named
  refine ⟨l, ?_, hname⟩
  rwa [Option.mem_def, List.getElem?_append_left (lt_of_mem_getElem? hl)]

theorem IsSpan.append (h : IsSpan lines d) (line : String) : IsSpan (lines ++ [line]) d := by
  have hstop := h.stop_lt
  refine ⟨h.start_le, by simp; omega, h.named_append line, ?_⟩
  · intro i hstart hi l hl
    rw [within_append (by omega)]
    refine h.closes_iff i hstart hi l ?_
    rwa [Option.mem_def, List.getElem?_append_left (by omega)] at hl

/-- One more line, before which the same is open. -/
theorem starts_iff_snoc
    (h : ∀ i, ∀ line ∈ lines[i]?, (∃ d ∈ ds, d.start = i) ↔
      (∃ name, Declares line name) ∧ (inForce lines ds i).insideText = false)
    (hforce : ∀ i ≤ lines.length, inForce lines ds' i = inForce lines ds i)
    (hstarts : ∀ i < lines.length, (∃ d ∈ ds', d.start = i) ↔ ∃ d ∈ ds, d.start = i)
    (hline : (∃ d ∈ ds', d.start = lines.length) ↔
      (∃ name, Declares line name) ∧ (inForce lines ds lines.length).insideText = false) :
    ∀ i, ∀ l ∈ (lines ++ [line])[i]?, (∃ d ∈ ds', d.start = i) ↔
      (∃ name, Declares l name) ∧ (inForce (lines ++ [line]) ds' i).insideText = false := by
  intro i l hl
  rcases mem_getElem?_snoc hl with hl | ⟨rfl, rfl⟩
  · have hi := lt_of_mem_getElem? hl
    rw [inForce_append (by omega), hforce i (by omega), hstarts i hi]
    exact h i l hl
  · rw [inForce_append (Nat.le_refl _), hforce _ (Nat.le_refl _)]
    exact hline

theorem Spans.stop_lt (h : Spans lines ds) (hd : d ∈ ds) : d.stop < lines.length :=
  (h.isSpan d hd).stop_lt

/-- A declaration that has ended is not open behind the text. -/
theorem Spans.isOpenBefore_eq_false (h : Spans lines ds) (hd : d ∈ ds)
    (hend : d.ending ≠ .missing) : d.isOpenBefore lines.length = false := by
  have hstop := h.stop_lt hd
  cases hending : d.ending with
  | missing => exact absurd hending hend
  | closed =>
    simp [isOpenBefore, hending]
    omega
  | cutOff =>
    -- the next declaration has begun
    obtain ⟨e, he, hstart⟩ := h.cutOff d hd hending
    have hle := (h.isSpan e he).start_le
    have hlt := h.stop_lt he
    simp [isOpenBefore, hending]
    omega

theorem Spans.any_covers_eq_false (h : Spans lines ds) :
    ds.any (·.covers lines.length) = false := by
  rw [List.any_eq_false]
  intro d hd
  have hstop := h.stop_lt hd
  simp [covers]
  omega

/-- A line outside of all declarations. -/
theorem Spans.skip (h : Spans lines ds) (hend : ∀ d ∈ ds, d.ending ≠ .missing)

    (hline : ¬ ((∃ name, Declares line name) ∧
      (inForce lines ds lines.length).insideText = false)) :
    Spans (lines ++ [line]) ds where
  isSpan d hd := (h.isSpan d hd).append line
  ordered := h.ordered
  unterminated d hd hmissing := absurd (by simpa [terminated] using hmissing) (hend d hd)
  cutOff := h.cutOff
  starts_iff := by
    refine starts_iff_snoc h.starts_iff (fun _ _ => rfl) (fun _ _ => Iff.rfl) ?_
    refine iff_of_false ?_ hline
    rintro ⟨d, hd, hstart⟩
    have hle := (h.isSpan d hd).start_le
    have hlt := h.stop_lt hd
    omega

/-- How a declaration stands after a line. -/
def endingAfter (state : LineState) (line : String) : Ending :=
  if state.closes line then .closed else .missing

theorem endingAfter_eq_closed_iff :
    endingAfter state line = .closed ↔ state.closes line = true := by
  unfold endingAfter
  split <;> simp_all

theorem endingAfter_ne_cutOff (state : LineState) (line : String) :
    endingAfter state line ≠ .cutOff := by
  unfold endingAfter
  split <;> simp

/-- A line inside the declaration that is open. -/
theorem Spans.extend {start : Nat}
    (h : Spans lines (ds ++ [⟨name, start, lines.length - 1, .missing⟩]))
    (hline : ¬ ((∃ name, Declares line name) ∧
      (inForce lines (ds ++ [⟨name, start, lines.length - 1, .missing⟩]) lines.length).insideText =
        false)) :
    Spans (lines ++ [line]) (ds ++ [⟨name, start, lines.length,
      endingAfter ((within lines start lines.length).consume line) line⟩]) := by
  have hold := h.isSpan _ (List.mem_append_right ds (List.mem_singleton_self _))
  obtain ⟨hordered, -, hbefore⟩ := List.pairwise_append.1 h.ordered
  have hbefore := fun d hd => hbefore d hd _ (List.mem_singleton_self _)
  obtain ⟨hle, hlt⟩ : start ≤ lines.length - 1 ∧ lines.length - 1 < lines.length :=
    ⟨hold.start_le, hold.stop_lt⟩
  refine ⟨List.forall_mem_append.2 ⟨fun d hd => ?_, List.forall_mem_singleton.2 ?_⟩, ?_, ?_, ?_, ?_⟩
  · exact (h.isSpan d (List.mem_append_left _ hd)).append line
  · refine ⟨by simp only; omega, by simp, hold.named_append line, ?_⟩
    intro i hstart hi l hl
    rcases mem_getElem?_snoc hl with hl | ⟨rfl, rfl⟩
    · -- the lines before have not closed it
      have hlt := lt_of_mem_getElem? hl
      rw [within_append (by omega), hold.closes_iff i hstart (by simp only; omega) l hl]
      simp only [reduceCtorEq, false_and, false_iff, not_and]
      omega
    · rw [within_snoc (by omega), ← endingAfter_eq_closed_iff]
      exact ⟨fun hclosed => ⟨hclosed, rfl⟩, fun hclosed => hclosed.1⟩
  · refine List.pairwise_append.2 ⟨hordered, List.pairwise_singleton _ _, fun d hd => ?_⟩
    exact List.forall_mem_singleton.2 (hbefore d hd)
  · refine List.forall_mem_append.2 ⟨fun d hd hmissing => ?_, by simp⟩
    have hlast := (h.unterminated d (List.mem_append_left _ hd) hmissing).2
    have hstop : d.stop < start := hbefore d hd
    omega
  · refine List.forall_mem_append.2 ⟨fun d hd hcut => ?_, List.forall_mem_singleton.2 ?_⟩
    · obtain ⟨e, he, hstart⟩ := h.cutOff d (List.mem_append_left _ hd) hcut
      rcases List.mem_append.1 he with he | he
      · exact ⟨e, List.mem_append_left _ he, hstart⟩
      · rw [List.mem_singleton.1 he] at hstart
        exact ⟨_, List.mem_append_right _ (List.mem_singleton_self _), hstart⟩
    · exact fun hcut => absurd hcut (endingAfter_ne_cutOff _ _)
  · refine starts_iff_snoc h.starts_iff (fun i hi => ?_) (fun i hi => by simp) ?_
    · refine inForce_snoc_congr rfl (Bool.eq_iff_iff.2 ?_) fun j hj => Bool.eq_iff_iff.2 ?_
      · rw [isOpenBefore_iff, isOpenBefore_iff]
        simp only [ne_eq, reduceCtorEq, not_false_eq_true, true_and]
        omega
      · simp only [covers, Bool.and_eq_true, decide_eq_true_eq]
        omega
    · refine iff_of_false ?_ hline
      simp only [List.mem_append, List.mem_singleton]
      rintro ⟨d, hd | rfl, hstart⟩
      · have hdstart := (h.isSpan d (List.mem_append_left _ hd)).start_le
        have hdstop := h.stop_lt (List.mem_append_left _ hd)
        omega
      · simp only at hstart
        omega

/-- A declaration that has not ended is cut off. -/
def cut (d : Declaration) : Declaration :=
  if d.ending = .missing then { d with ending := .cutOff } else d

@[simp] theorem cut_start (d : Declaration) : (cut d).start = d.start := by
  unfold cut
  split <;> rfl

@[simp] theorem cut_stop (d : Declaration) : (cut d).stop = d.stop := by
  unfold cut
  split <;> rfl

@[simp] theorem cut_name (d : Declaration) : (cut d).name = d.name := by
  unfold cut
  split <;> rfl

theorem cut_ending_eq_closed (d : Declaration) : (cut d).ending = .closed ↔ d.ending = .closed := by
  unfold cut
  split <;> simp_all

theorem cut_ending_eq_cutOff (d : Declaration) :
    (cut d).ending = .cutOff ↔ d.ending = .cutOff ∨ d.ending = .missing := by
  unfold cut
  split <;> simp_all

theorem cut_ending_ne (d : Declaration) : (cut d).ending ≠ .missing := by
  unfold cut
  split <;> simp_all

theorem map_cut_of_ne (h : ∀ d ∈ ds, d.ending ≠ .missing) : ds.map cut = ds := by
  have hself : ∀ d ∈ ds, cut d = id d := fun d hd => if_neg (h d hd)
  rw [List.map_congr_left hself, List.map_id]

theorem IsSpan.cut (h : IsSpan lines d) : IsSpan lines (cut d) where
  start_le := by simpa using h.start_le
  stop_lt := by simpa using h.stop_lt
  named := by simpa using h.named
  closes_iff := by simpa [cut_ending_eq_closed] using h.closes_iff

theorem any_covers_map_cut (i : Nat) :
    (ds.map Declaration.cut).any (·.covers i) = ds.any (·.covers i) := by
  have hcovers : ((·.covers i) ∘ Declaration.cut) = (·.covers i) := by
    funext d
    rw [Function.comp_apply, covers, covers, cut_start, cut_stop]
  rw [List.any_map, hcovers]

theorem inForce_map_cut (i : Nat) :
    inForce lines (ds.map Declaration.cut) i = inForce lines ds i := by
  have hopen : ((·.isOpenBefore i) ∘ Declaration.cut) = (·.isOpenBefore i) := by
    funext d
    rw [Function.comp_apply, Bool.eq_iff_iff, isOpenBefore_iff, isOpenBefore_iff, ne_eq, ne_eq,
      cut_ending_eq_closed, cut_start, cut_stop]
  refine inForce_congr ?_ fun j _ => any_covers_map_cut j
  rw [List.find?_map, hopen, Option.map_map]
  exact Option.map_congr fun d _ => cut_start d

/-- A line on which a declaration starts. -/
theorem Spans.start (h : Spans lines ds) (hname : Declares line name)
    (hforce : (inForce lines ds lines.length).insideText = false) :
    Spans (lines ++ [line]) (ds.map Declaration.cut ++ [⟨name, lines.length, lines.length,
      endingAfter (LineState.consume {} line) line⟩]) := by
  have hlast : line ∈ (lines ++ [line])[lines.length]? := by simp
  refine ⟨List.forall_mem_append.2 ⟨?_, List.forall_mem_singleton.2 ?_⟩, ?_, ?_, ?_, ?_⟩
  · exact List.forall_mem_map.2 fun d hd => (h.isSpan d hd).cut.append line
  · refine ⟨Nat.le_refl _, by simp, ⟨line, hlast, hname⟩, ?_⟩
    intro i hstart hi l hl
    obtain rfl : i = lines.length := Nat.le_antisymm hi hstart
    obtain rfl : line = l := Option.some.inj (hlast.symm.trans hl)
    have hempty : within lines lines.length lines.length = {} := by
      rw [within, List.take_length, List.drop_length]
      rfl
    rw [within_snoc (Nat.le_refl _), hempty, ← endingAfter_eq_closed_iff]
    exact ⟨fun hclosed => ⟨hclosed, rfl⟩, fun hclosed => hclosed.1⟩
  · refine List.pairwise_append.2 ⟨?_, List.pairwise_singleton _ _, ?_⟩
    · simpa [List.pairwise_map] using h.ordered
    · refine List.forall_mem_map.2 fun d hd => List.forall_mem_singleton.2 ?_
      simpa using h.stop_lt hd
  · refine List.forall_mem_append.2 ⟨List.forall_mem_map.2 fun d hd hmissing => ?_, ?_⟩
    · exact absurd (by simpa [terminated] using hmissing) (cut_ending_ne d)
    · exact List.forall_mem_singleton.2 fun _ => ⟨by simp, by simp⟩
  · refine List.forall_mem_append.2 ⟨List.forall_mem_map.2 fun d hd hcut => ?_, ?_⟩
    · rw [cut_stop]
      rcases (cut_ending_eq_cutOff d).1 hcut with hcut | hmissing
      · obtain ⟨e, he, hstart⟩ := h.cutOff d hd hcut
        exact ⟨cut e, List.mem_append_left _ (List.mem_map_of_mem he), (cut_start e).trans hstart⟩
      · -- it goes on to the line before, and the new one is next
        have hend := (h.unterminated d hd (by simp [terminated, hmissing])).2
        exact ⟨_, List.mem_append_right _ (List.mem_singleton_self _), hend.symm⟩
    · exact List.forall_mem_singleton.2 fun hcut => absurd hcut (endingAfter_ne_cutOff _ _)
  · refine starts_iff_snoc h.starts_iff (fun i hi => ?_) (fun i hi => ?_) ?_
    · rw [inForce_snoc_of_le hi, inForce_map_cut]
    · simp [Nat.ne_of_gt hi]
    · exact iff_of_true (by simp) ⟨⟨name, hname⟩, hforce⟩

end Spans

/-! ## The search -/

/-- The declaration that is pending before line `index`, as it is if no line follows. -/
def unfinished (index : Nat) (pending : Option Pending) : List Declaration :=
  pending.toList.map fun p => ⟨p.name, p.start, index - 1, .missing⟩

@[simp] theorem unfinished_none (index : Nat) : unfinished index none = [] := rfl

@[simp] theorem unfinished_some (index : Nat) (p : Pending) :
    unfinished index (some p) = [⟨p.name, p.start, index - 1, .missing⟩] := rfl

theorem scanFrom_nil (index : Nat) (outer : LineState) (pending : Option Pending) :
    scanFrom index outer pending [] = unfinished index pending := by
  cases pending <;> rfl

/-- Where the search stands behind some lines. -/
structure Scanned (lines : List String) (ds : List Declaration) (outer : LineState)
    (pending : Option Pending) : Prop where
  spans : Spans lines (ds ++ unfinished lines.length pending)
  terminated : ∀ d ∈ ds, d.ending ≠ .missing
  outer_eq : outer = outside lines (ds ++ unfinished lines.length pending) lines.length
  state_eq : ∀ p ∈ pending, p.state = within lines p.start lines.length

section Scanned

variable {lines : List String} {ds : List Declaration} {outer : LineState}
  {pending : Option Pending} {line name : String}

/-- The name of the declaration that starts on a line, given what is open before it. -/
def started? (state : LineState) (line : String) : Option String :=
  if state.insideText then none else declaredName? line

theorem started?_eq_some_iff :
    started? state line = some name ↔ Declares line name ∧ state.insideText = false := by
  rw [started?, ← declaredName?_eq_some_iff]
  cases state.insideText <;> simp

theorem started?_eq_none_iff :
    started? state line = none ↔
      ¬ ((∃ name, Declares line name) ∧ state.insideText = false) := by
  rw [started?]
  simp only [← declaredName?_eq_some_iff, ← Option.isSome_iff_exists]
  cases state.insideText <;> simp

theorem Scanned.inForce_eq (h : Scanned lines ds outer pending) :
    inForce lines (ds ++ unfinished lines.length pending) lines.length =
      (pending.map (·.state)).getD outer := by
  have hshut : ∀ d ∈ ds, d.isOpenBefore lines.length = false := fun d hd =>
    h.spans.isOpenBefore_eq_false (List.mem_append_left _ hd) (h.terminated d hd)
  cases pending with
  | none =>
    have houter := h.outer_eq
    rw [unfinished_none, List.append_nil] at houter ⊢
    rw [inForce_of_shut hshut, ← houter]
    rfl
  | some p =>
    have hspan := h.spans.isSpan ⟨p.name, p.start, lines.length - 1, .missing⟩ (by simp)
    obtain ⟨hle, hlt⟩ : p.start ≤ lines.length - 1 ∧ lines.length - 1 < lines.length :=
      ⟨hspan.start_le, hspan.stop_lt⟩
    have hopen :
        isOpenBefore ⟨p.name, p.start, lines.length - 1, .missing⟩ lines.length = true := by
      rw [isOpenBefore_iff]
      exact ⟨by simp only; omega, Or.inr ⟨by simp, by simp only; omega⟩⟩
    exact (inForce_snoc_of_open hshut hopen).trans (h.state_eq p rfl).symm

/-- The last line is in a declaration, so it is not outside of all. -/
theorem outside_of_covers {ds : List Declaration} (hlast : ds'.any (·.covers lines.length) = true)
    (h : ∀ j < lines.length, ds'.any (·.covers j) = ds.any (·.covers j)) :
    outside (lines ++ [line]) ds' (lines ++ [line]).length = outside lines ds lines.length := by
  rw [List.length_append, List.length_singleton, outside_snoc, if_pos hlast]
  exact outside_congr h

theorem Scanned.skip (h : Scanned lines ds outer none) (hline : started? outer line = none) :
    Scanned (lines ++ [line]) ds (outer.consume line) none := by
  have hforce := h.inForce_eq
  have hspans := h.spans
  have houter := h.outer_eq
  rw [unfinished_none, List.append_nil] at hforce hspans houter
  refine ⟨?_, h.terminated, ?_, by simp⟩
  · rw [unfinished_none, List.append_nil]
    refine hspans.skip h.terminated ?_
    rw [hforce]
    exact started?_eq_none_iff.1 hline
  · rw [unfinished_none, List.append_nil, List.length_append, List.length_singleton, outside_snoc,
      if_neg (by simp [hspans.any_covers_eq_false]), ← houter]

/-- The last line is in a declaration, which it closes or leaves pending. -/
theorem Scanned.of_spans {start : Nat}
    (hspans : Spans (lines ++ [line]) (ds ++ [⟨name, start, lines.length, endingAfter state line⟩]))
    (hterminated : ∀ d ∈ ds, d.ending ≠ .missing)
    (houter : outer = outside (lines ++ [line])
      (ds ++ [⟨name, start, lines.length, endingAfter state line⟩]) (lines ++ [line]).length)
    (hstate : state = within (lines ++ [line]) start (lines ++ [line]).length) :
    (state.closes line = true →
      Scanned (lines ++ [line]) (ds ++ [⟨name, start, lines.length, .closed⟩]) outer none) ∧
    (state.closes line = false →
      Scanned (lines ++ [line]) ds outer (some ⟨name, start, state⟩)) := by
  have hlength : (lines ++ [line]).length - 1 = lines.length := by simp
  constructor
  · intro hcloses
    rw [endingAfter, if_pos hcloses] at hspans houter
    refine ⟨?_, List.forall_mem_append.2 ⟨hterminated, by simp⟩, ?_, by simp⟩
    · rwa [unfinished_none, List.append_nil]
    · rwa [unfinished_none, List.append_nil]
  · intro hcloses
    rw [endingAfter, if_neg (by simp [hcloses])] at hspans houter
    refine ⟨?_, hterminated, ?_, ?_⟩
    · rwa [unfinished_some, hlength]
    · rwa [unfinished_some, hlength]
    · rintro _ ⟨⟩
      exact hstate

/-- A line inside the pending declaration. -/
theorem Scanned.extend {p : Pending} (h : Scanned lines ds outer (some p))
    (hline : started? p.state line = none) :
    ((p.state.consume line).closes line = true →
      Scanned (lines ++ [line]) (ds ++ [⟨p.name, p.start, lines.length, .closed⟩]) outer none) ∧
    ((p.state.consume line).closes line = false →
      Scanned (lines ++ [line]) ds outer (some { p with state := p.state.consume line })) := by
  have hforce := h.inForce_eq
  have hspans := h.spans
  have houter := h.outer_eq
  have hstate := h.state_eq p rfl
  rw [unfinished_some] at hforce hspans houter
  have hspan := hspans.isSpan _ (List.mem_append_right ds (List.mem_singleton_self _))
  obtain ⟨hle, hlt⟩ : p.start ≤ lines.length - 1 ∧ lines.length - 1 < lines.length :=
    ⟨hspan.start_le, hspan.stop_lt⟩
  refine Scanned.of_spans ?_ h.terminated ?_ ?_
  · rw [hstate]
    refine hspans.extend ?_
    rw [hforce]
    exact started?_eq_none_iff.1 hline
  · rw [houter]
    refine (outside_of_covers ?_ fun j hj => ?_).symm
    · simp [covers]
      omega
    · have hcovers : covers ⟨p.name, p.start, lines.length,
          endingAfter (p.state.consume line) line⟩ j =
          covers ⟨p.name, p.start, lines.length - 1, .missing⟩ j := by
        rw [Bool.eq_iff_iff]
        simp only [covers, Bool.and_eq_true, decide_eq_true_eq]
        omega
      simp [hcovers]
  · rw [List.length_append, List.length_singleton, within_snoc (by omega), ← hstate]

/-- A line on which a declaration starts. -/
theorem Scanned.begin (h : Scanned lines ds outer pending)
    (hline : started? ((pending.map (·.state)).getD outer) line = some name) :
    ((LineState.consume {} line).closes line = true →
      Scanned (lines ++ [line]) (ds ++ (unfinished lines.length pending).map cut ++
        [⟨name, lines.length, lines.length, .closed⟩]) outer none) ∧
    ((LineState.consume {} line).closes line = false →
      Scanned (lines ++ [line]) (ds ++ (unfinished lines.length pending).map cut) outer
        (some ⟨name, lines.length, LineState.consume {} line⟩)) := by
  have hforce := h.inForce_eq
  obtain ⟨hname, hstate⟩ := started?_eq_some_iff.1 hline
  have hcut : (ds ++ unfinished lines.length pending).map cut =
      ds ++ (unfinished lines.length pending).map cut := by
    rw [List.map_append, map_cut_of_ne h.terminated]
  rw [← hcut]
  refine Scanned.of_spans (h.spans.start hname (hforce ▸ hstate)) ?_ ?_ ?_
  · exact List.forall_mem_map.2 fun d _ => cut_ending_ne d
  · rw [h.outer_eq]
    refine (outside_of_covers (by simp [covers]) fun j hj => ?_).symm
    have hlater : ¬ lines.length ≤ j := by omega
    rw [List.any_append, any_covers_map_cut]
    simp [covers, hlater]
  · rw [List.length_append, List.length_singleton, within_snoc (Nat.le_refl _), within,
      List.take_length, List.drop_length]
    rfl

theorem scanFrom_start (index : Nat)
    (h : started? ((pending.map (·.state)).getD outer) line = some name) (rest : List String) :
    scanFrom index outer pending (line :: rest) = (unfinished index pending).map cut ++
      if (LineState.consume {} line).closes line then
        ⟨name, index, index, .closed⟩ :: scanFrom (index + 1) outer none rest
      else scanFrom (index + 1) outer (some ⟨name, index, LineState.consume {} line⟩) rest := by
  rw [started?] at h
  cases pending with
  | none =>
    rw [Option.map_none, Option.getD_none] at h
    rw [scanFrom]
    cases hcloses : (LineState.consume {} line).closes line <;> simp [h, begin, hcloses]
  | some p =>
    rw [Option.map_some, Option.getD_some] at h
    rw [scanFrom]
    cases hcloses : (LineState.consume {} line).closes line <;> simp [h, begin, hcloses, cut]

/-- The rest of the lines. -/
theorem Scanned.spans_scanFrom (h : Scanned lines ds outer pending) (rest : List String) :
    Spans (lines ++ rest) (ds ++ scanFrom lines.length outer pending rest) := by
  induction rest generalizing lines ds outer pending with
  | nil =>
    rw [List.append_nil, scanFrom_nil]
    exact h.spans
  | cons line rest ih =>
    have hlength : (lines ++ [line]).length = lines.length + 1 := by simp
    rw [List.append_cons]
    cases hstart : started? ((pending.map (·.state)).getD outer) line with
    | some name =>
      obtain ⟨hclosed, hpending⟩ := h.begin hstart
      rw [scanFrom_start _ hstart, ← hlength, ← List.append_assoc]
      split
      · next hcloses =>
        have hspans := ih (hclosed hcloses)
        rwa [List.append_assoc (ds ++ _)] at hspans
      · next hcloses => exact ih (hpending (by simpa using hcloses))
    | none =>
      cases pending with
      | none =>
        have hskip := ih (h.skip hstart)
        rw [Option.map_none, Option.getD_none, started?] at hstart
        rw [scanFrom]
        simp only [hstart]
        rwa [hlength] at hskip
      | some p =>
        obtain ⟨hclosed, hpending⟩ := h.extend hstart
        rw [Option.map_some, Option.getD_some, started?] at hstart
        rw [scanFrom, ← hlength]
        simp only [hstart]
        split
        · next hcloses =>
          have hspans := ih (hclosed hcloses)
          rwa [List.append_assoc ds] at hspans
        · next hcloses => exact ih (hpending (by simpa using hcloses))

end Scanned

/-! ## Warnings -/

/-- What is said about a declaration that the next one cuts off. -/
def cutOffText (d next : Declaration) : String :=
  s!"Type declaration '{d.name}' (line {d.start + 1}) not closed before " ++
    s!"'{next.name}' (line {next.start + 1}); terminating it at line {next.start}"

/-- One warning for each declaration that is cut off, in their order. -/
theorem warnings_forall₂ {ds : List Declaration} (hle : ∀ d ∈ ds, d.start ≤ d.stop)
    (hordered : ds.Pairwise (·.stop < ·.start))
    (hcut : ∀ d ∈ ds, d.ending = .cutOff → ∃ e ∈ ds, e.start = d.stop + 1) :
    List.Forall₂ (fun d w => ∃ next ∈ ds, next.start = d.stop + 1 ∧ w = cutOffText d next)
      (ds.filter (·.ending = .cutOff)) (warnings ds) := by
  induction ds with
  | nil => exact .nil
  | cons d ds ih =>
    obtain ⟨hd, hds⟩ := List.forall_mem_cons.1 hle
    obtain ⟨hbefore, hordered⟩ := List.pairwise_cons.1 hordered
    -- a declaration is not followed by one before it
    have hnext : ∀ e ∈ ds, e.ending = .cutOff → ∃ f ∈ ds, f.start = e.stop + 1 := by
      intro e he hending
      obtain ⟨f, hf, hstart⟩ := hcut e (List.mem_cons_of_mem d he) hending
      rcases List.mem_cons.1 hf with rfl | hf
      · have hstop := hbefore e he
        have hle := hds e he
        omega
      · exact ⟨f, hf, hstart⟩
    have hmore : List.Forall₂
        (fun e w => ∃ next ∈ d :: ds, next.start = e.stop + 1 ∧ w = cutOffText e next)
        (ds.filter (·.ending = .cutOff)) (warnings ds) :=
      (ih hds hordered hnext).imp fun _ _ ⟨f, hf, hw⟩ => ⟨f, List.mem_cons_of_mem d hf, hw⟩
    by_cases hending : d.ending = .cutOff
    · obtain ⟨f, hf, hstart⟩ := hcut d List.mem_cons_self hending
      rcases List.mem_cons.1 hf with rfl | hf
      · omega
      cases ds with
      | nil => cases hf
      | cons e ds =>
        have hstop := hbefore e List.mem_cons_self
        have hfirst : e.start = d.stop + 1 := by
          rcases List.mem_cons.1 hf with rfl | hf
          · exact hstart
          · have hlater := (List.pairwise_cons.1 hordered).1 f hf
            have hle := hds e List.mem_cons_self
            omega
        rw [List.filter_cons_of_pos (by simpa using hending), warnings, if_pos hending]
        exact .cons ⟨e, by simp, hfirst, rfl⟩ hmore
    · rw [List.filter_cons_of_neg (by simpa using hending)]
      cases ds with
      | nil => exact hmore
      | cons e ds =>
        rw [warnings, if_neg hending]
        exact hmore

/-- The declarations that the search finds are the spans of the text, and each one that is cut off
has one warning, which names the declaration that starts on the next line. -/
theorem scan_spans (lines : List String) :
    Spans lines (scan lines) ∧
    List.Forall₂ (fun d w => ∃ next ∈ scan lines, next.start = d.stop + 1 ∧ w = cutOffText d next)
      ((scan lines).filter (·.ending = .cutOff)) (warnings (scan lines)) := by
  have hstart : Scanned [] [] {} none :=
    ⟨⟨by simp, by simp, by simp, by simp, by simp⟩, by simp, rfl, by simp⟩
  have hspans : Spans lines (scan lines) := hstart.spans_scanFrom lines
  exact ⟨hspans, warnings_forall₂ (fun d hd => (hspans.isSpan d hd).start_le) hspans.ordered
    hspans.cutOff⟩

end EventFlow.Declaration
