import EventFlow.Proofs.Program.Confined
import EventFlow.Proofs.Token.Layout
import Mathlib.Data.List.TakeWhile

/-! A program is read inside its list of tokens.

Reading from any token but the last one ends at a later token, the end of the text at the latest
(`Moves`).  So every loop of the grammar comes to an end on whatever tokens there are, and a program
that cannot be read is refused with a complaint about one of its tokens. -/

namespace EventFlow.Program

open Token

/-- A reader that starts before the end of the text and succeeds stops behind the token it started
at, and no later than at the end. -/
def Moves {α : Type} (tokens : List Token) (read : Reader α) : Prop :=
  ∀ p, p + 1 < tokens.length → ∀ a rest, read ((stream tokens).drop p) = .ok (a, rest) →
    ∃ q, p < q ∧ q < tokens.length ∧ rest = (stream tokens).drop q

/-- Every part of a program is read forward. -/
structure MovesOn (source : List Char) (tokens : List Token) (depth : Nat) : Prop where
  statement : Moves tokens (statement (grammar source depth))
  imports : Moves tokens fun ts =>
    importContent ts.next >>= fun p => endStatement p.2 >>= fun q => .ok (p.1, q.2)
  expression : Moves tokens (expression (grammar source depth))
  arrowBody : ∀ line, Moves tokens (arrowBody (grammar source depth) line)
  arguments : Moves tokens (arguments (grammar source depth))
  suffixed : Moves tokens fun ts =>
    operand (grammar source depth) ts >>= fun p =>
      suffixes (grammar source depth) p.1 p.2.length p.2
  operand : Moves tokens (operand (grammar source depth))
  array : Moves tokens fun ts =>
    elements (grammar source depth) "]" .arrayLiteral ts.length ts.next
  object : Moves tokens fun ts => properties (grammar source depth) ts.length ts.next

/-! ## Tokens of a text -/

/-- The end of the text is the last token and no other. -/
def Ended (tokens : List Token) : Prop :=
  ∃ (words : List Token) (last : Token), tokens = words ++ [last] ∧ last.lexeme = .eof ∧
    ∀ t ∈ words, t.lexeme ≠ .eof

theorem ended_of_tokenize {source : String} {tokens : List Token}
    (h : tokenize source = .ok tokens) : Ended tokens := by
  obtain ⟨words, last, hsplit, hlast, hwords⟩ := (laid_of_tokenizeFrom h).lexemes
  exact ⟨words, last, hsplit, hlast.1, fun t ht => (hwords t ht).1⟩

section Tokens

variable {tokens : List Token} {α : Type}

theorem Ended.left (h : Ended tokens) : Left (stream tokens) (stream tokens) := by
  obtain ⟨words, last, rfl, hlast, -⟩ := h
  refine ⟨List.suffix_refl _, ?_⟩
  have hmap := congrArg List.getLast? (map_token_stream (words ++ [last]))
  rw [List.getLast?_map, List.getLast?_concat, Option.map_eq_some_iff] at hmap
  obtain ⟨e, he, rfl⟩ := hmap
  exact ⟨e, he, hlast⟩

/-- What is left behind `p` tokens. -/
theorem Ended.left_drop (h : Ended tokens) {p : Nat} (hp : p < tokens.length) :
    Left (stream tokens) ((stream tokens).drop p) := by
  obtain ⟨e, he, heof⟩ := h.left.last
  refine ⟨List.drop_suffix _ _, e, ?_, heof⟩
  rw [Option.mem_def, List.getLast?_drop, if_neg (by rw [length_stream]; omega)]
  exact he

/-- Reading in step with itself, whether or not it fails. -/
abbrev alone (source : List Char) (tokens : List Token) : Lockstep :=
  .appended source (stream tokens) [] False

theorem Ended.related_drop (h : Ended tokens) (source : List Char) {p : Nat}
    (hp : p < tokens.length) :
    (alone source tokens).Related ((stream tokens).drop p) ((stream tokens).drop p) :=
  ⟨(List.append_nil _).symm, h.left_drop hp⟩

/-- Before the last token, a token can be taken off. -/
theorem Ended.past_drop (h : Ended tokens) (source : List Char) {p : Nat}
    (hp : p + 1 < tokens.length) :
    (alone source tokens).Past false 1 ((stream tokens).drop p) ((stream tokens).drop p)
      (Stream.next ((stream tokens).drop p)) (Stream.next ((stream tokens).drop p)) := by
  have hlength : (Stream.next ((stream tokens).drop p)).length + 1 ≤
      ((stream tokens).drop p).length := by
    simp only [Stream.next, List.length_tail, List.length_drop, length_stream]
    omega
  refine ⟨?_, hlength, hlength, by rintro ⟨⟩⟩
  rw [Stream.next, List.tail_drop]
  exact h.related_drop source hp

/-- A reader that takes off a token moves to a later place. -/
theorem moves_of_reads (source : List Char) {read : Reader α} {e : Bool}
    (hread : ∀ p, p + 1 < tokens.length →
      (alone source tokens).Reads e 1 ((stream tokens).drop p) ((stream tokens).drop p)
        (read ((stream tokens).drop p)) (read ((stream tokens).drop p))) : Moves tokens read := by
  intro p hp a rest hok
  obtain ⟨_, -, -, hpast⟩ := (hread p hp).ok _ hok
  have hleft : Left (stream tokens) rest := hpast.related.2
  have hpos := hleft.length_pos
  have hshort := hpast.shorter
  have hle := hleft.suffix.length_le
  rw [length_stream] at hle
  simp only [List.length_drop, length_stream] at hshort
  refine ⟨tokens.length - rest.length, by omega, by omega, ?_⟩
  rw [← length_stream tokens]
  exact List.suffix_iff_eq_drop.1 hleft.suffix

theorem Ended.movesOn (h : Ended tokens) (source : List Char) (depth : Nat) :
    MovesOn source tokens depth := by
  have hg : (grammar source depth).InStep (alone source tokens) (tokens.length + 1)
      (grammar source depth) := Lockstep.grammar_inStep _ (Or.inl ⟨id, rfl⟩)
  have hlen : ∀ p, ((stream tokens).drop p).length ≤ tokens.length := by
    intro p
    rw [List.length_drop, length_stream]
    exact Nat.sub_le _ _
  have hstart := fun p (hp : p + 1 < tokens.length) =>
    h.related_drop source (Nat.lt_of_succ_lt hp)
  have hnocut : ∀ ts, ¬ (alone source tokens).AtCut ts := by
    rintro ts ⟨_, _, ⟨⟩⟩
  constructor
  case statement =>
    exact moves_of_reads source fun p hp =>
      Lockstep.reads_statement hg (hstart p hp) (hnocut _) (Nat.le_succ_of_le (hlen p))
  case imports =>
    refine moves_of_reads source (e := false) fun p hp => ?_
    have hpast := h.past_drop source hp
    exact hpast.reads ((Lockstep.reads_importContent hpast.related).bind fun content _ _ hrest =>
      (Lockstep.reads_endStatement hrest.related).bind fun _ _ _ hend => hend.done)
  case expression =>
    exact moves_of_reads source fun p hp =>
      Lockstep.reads_expression hg (hstart p hp) (Nat.le_succ_of_le (hlen p))
  case arrowBody =>
    exact fun line => moves_of_reads source fun p hp =>
      Lockstep.reads_arrowBody hg line (hstart p hp) (Nat.lt_succ_of_le (hlen p))
  case arguments =>
    exact moves_of_reads source fun p hp =>
      Lockstep.reads_arguments hg (hstart p hp) (Nat.le_succ_of_le (hlen p))
  case suffixed =>
    refine moves_of_reads source (e := true) fun p hp => ?_
    have hle := hlen p
    refine (Lockstep.reads_operand hg (hstart p hp) (by omega)).bind (k := 0) fun _ _ _ hrest => ?_
    have := hrest.shorter
    exact Lockstep.reads_suffixes hg _ hrest.related (hrest.behind rfl) (by omega) (Nat.le_refl _)
      (Nat.le_add_right _ _)
  case operand =>
    exact moves_of_reads source fun p hp =>
      Lockstep.reads_operand hg (hstart p hp) (Nat.le_succ_of_le (hlen p))
  case array =>
    refine moves_of_reads source (e := true) fun p hp => ?_
    have hpast := h.past_drop source hp
    have hshort := hpast.shorter
    have hle := hlen p
    exact hpast.reads (Lockstep.reads_elements hg rfl rfl hpast.related (by omega) (by omega)
      (Nat.lt_add_right _ hshort))
  case object =>
    refine moves_of_reads source (e := true) fun p hp => ?_
    have hpast := h.past_drop source hp
    have hshort := hpast.shorter
    have hle := hlen p
    exact hpast.reads (Lockstep.reads_properties hg hpast.related (by omega) (by omega)
      (Nat.lt_add_right _ hshort))

/-- What stands behind the end of the text does not matter, and the bounds on depth and length do
not either. -/
theorem Ended.follows (h : Ended tokens) (source : List Char) (more : Stream) {depth fuel : Nat}
    (hdepth : tokens.length ≤ depth) (hfuel : tokens.length ≤ fuel) :
    (Lockstep.appended source (stream tokens) more True).Follows (fun ss ss' => ss' = ss)
      (parse source tokens) (statements (grammar source depth) fuel (stream tokens ++ more)) := by
  have hlength := Nat.le_of_eq (length_stream tokens)
  have hg := Lockstep.grammar_inStep (.appended source (stream tokens) more True)
    (Or.inr ⟨Nat.le_refl tokens.length, hdepth⟩)
  refine Lockstep.follows_statements hg ⟨rfl, h.left⟩ hlength hlength ?_
  rw [List.length_append, length_stream]
  exact Nat.add_le_add_right hfuel _

end Tokens

/-- A program is read inside its tokens. -/
structure Inside (source : List Char) (tokens : List Token) : Prop where
  /-- If it cannot be read, the complaint is about one of its tokens. -/
  blames : ∀ c, parse source tokens = .error c → ∃ t ∈ tokens, Blames t c
  /-- What stands behind the end of the text is not read, and no bound on the nesting or on the
  number of parts is met. -/
  behind : ∀ depth fuel, tokens.length ≤ depth → tokens.length ≤ fuel → ∀ more,
    statements (grammar source depth) fuel (stream tokens ++ more) = parse source tokens
  movesOn : ∀ depth, MovesOn source tokens depth

theorem parse_inside {source : String} {tokens : List Token} (h : tokenize source = .ok tokens) :
    Inside source.toList tokens := by
  have hended := ended_of_tokenize h
  refine ⟨fun c hc => ?_, fun depth fuel hdepth hfuel more => ?_, hended.movesOn source.toList⟩
  · have hfollows := hended.follows source.toList [] (Nat.le_refl _) (Nat.le_refl _)
    obtain ⟨-, t, ht, hblames⟩ := hfollows.error trivial c hc
    refine ⟨t.token, ?_, hblames⟩
    rw [← map_token_stream tokens]
    exact List.mem_map_of_mem ht
  · exact (hended.follows source.toList more hdepth hfuel).eq trivial

/-- Brackets of every kind that are left open. -/
def unclosed : String :=
  r"a((x): T<{}> => {
 b.c<[d]>(`${e}`, f => [{ g: -1, ...h"

/-- What is wrong with a program. -/
def fault? (source : String) (tokens : List Token) : Option Fault :=
  match parse source.toList tokens with
  | .ok _ => none
  | .error c => some c.fault

theorem parse_inside_unclosed :
    ∃ tokens, tokenize unclosed = .ok tokens ∧ tokens.length = 36 ∧
      fault? unclosed tokens = some .objectLiteral ∧ Inside unclosed.toList tokens := by
  have h : (tokenize unclosed).toOption.map (fun ts => (ts.length, fault? unclosed ts)) =
      some (36, some .objectLiteral) := by
    decide +kernel
  obtain ⟨tokens, htokens, h⟩ := Option.map_eq_some_iff.1 h
  obtain ⟨hlength, hfault⟩ := Prod.mk.inj h
  have hok := toOption_eq_some htokens
  exact ⟨tokens, hok, hlength, hfault, parse_inside hok⟩

/-! ## Numbers that cannot be cited -/

theorem ofHexs_zeros (n : Nat) : Text.ofHexs ('1' :: List.replicate n '0') = 16 ^ n := by
  have hfold : ∀ k, (List.replicate n '0').foldl
      (fun n c => 16 * n + (Text.hexValue? c).getD 0) k = 16 ^ n * k := by
    induction n with
    | zero => simp
    | succ n ih =>
      intro k
      have hzero : (Text.hexValue? '0').getD 0 = 0 := by decide
      rw [List.replicate_succ, List.foldl_cons, ih, hzero, Nat.pow_succ]
      simp [Nat.mul_assoc]
  have hone : 16 * 0 + (Text.hexValue? '1').getD 0 = 1 := by decide
  rw [Text.ofHexs, List.foldl_cons, hone, hfold, Nat.mul_one]

/-- A name, and a number of `n + 1` hexadecimal digits behind it. -/
def crowded (n : Nat) : List Char := 'x' :: ' ' :: '0' :: 'x' :: '1' :: List.replicate n '0'

theorem pieceAt_hex (n : Nat) : pieceAt '0' ('x' :: '1' :: List.replicate n '0') =
    .ok (.lexeme (.number (.int (16 ^ n : Nat))), n + 3) := by
  have hdigits : ('1' :: List.replicate n '0').takeWhile Text.isHex =
      '1' :: List.replicate n '0' := by
    refine List.takeWhile_eq_self_iff.2 fun c hc => ?_
    rcases List.mem_cons.1 hc with rfl | hc
    · decide
    · rw [List.eq_of_mem_replicate hc]
      decide
  have hnumber : hexNumber? ('0' :: 'x' :: '1' :: List.replicate n '0') =
      some (.int (16 ^ n : Nat), n + 3) := by
    simp only [hexNumber?, hdigits, ofHexs_zeros]
    simp [isHexMark]
  refine pieceAt_eq_ok_iff.2 (.lexeme rfl rfl (.number rfl rfl ?_))
  rw [readNumber, hnumber]

theorem tokenize_crowded (n : Nat) : ∃ tokens, tokenizeFrom 1 (crowded n) = .ok tokens ∧
    tokens.map (fun t => (t.lexeme, t.line)) =
      [(.identifier "x", 1), (.number (.int (16 ^ n : Nat)), 1), (.eof, 1)] := by
  have hline : ((Cursor.start 1).advance (crowded n)).line = 1 := by
    rw [line_advance]
    simp [crowded, Cursor.start, List.count_replicate]
  have hname : pieceAt 'x' ([] ++ ' ' :: '0' :: 'x' :: '1' :: List.replicate n '0') =
      .ok (.lexeme (.identifier "x"), 1) := rfl
  have hblank : pieceAt ' ' ([] ++ '0' :: 'x' :: '1' :: List.replicate n '0') =
      .ok (.blank, 1) := rfl
  have hlength : ('x' :: '1' :: List.replicate n '0').length + 1 = n + 3 := by simp
  have hnumber : pieceAt '0' ('x' :: '1' :: List.replicate n '0') =
      .ok (.lexeme (.number (.int (16 ^ n : Nat))), _) := hlength ▸ pieceAt_hex n
  have hpieces : pieces (.start 1) (crowded n) = .ok _ :=
    pieces_cons_append hname (pieces_cons_append hblank (pieces_single hnumber))
  refine ⟨_, bind_eq_ok.2 ⟨_, hpieces, rfl⟩, ?_⟩
  show [(_, _), (_, _), (Lexeme.eof, ((Cursor.start 1).advance (crowded n)).line)] = _
  rw [hline]
  rfl

/-- A number behind a name is not expected, and if it is too long it cannot be cited. -/
theorem parse_name_number (source : List Char) {tokens : List Token} {v : Number}
    (h : tokens.map (fun t => (t.lexeme, t.line)) =
      [(.identifier "x", 1), (.number v, 1), (.eof, 1)]) :
    parse source tokens = .error ⟨if v.isLong then .longNumber
      else .unexpectedToken (v.write Number.plain), some 1, none⟩ := by
  obtain ⟨a, ts, rfl, ha, h⟩ := List.map_eq_cons_iff.1 h
  obtain ⟨b, ts, rfl, hb, h⟩ := List.map_eq_cons_iff.1 h
  obtain ⟨c, ts, rfl, hc, h⟩ := List.map_eq_cons_iff.1 h
  rw [List.map_eq_nil_iff.1 h]
  obtain ⟨_, ⟨_, _, _⟩, _, _⟩ := a
  obtain ⟨_, ⟨_, _, _⟩, _, _⟩ := b
  obtain ⟨_, ⟨_, _, _⟩, _, _⟩ := c
  cases ha
  cases hb
  cases hc
  rfl

theorem isLong_pow {n : Nat} (h : Number.maxDigits ≤ n) :
    (Number.int (16 ^ n : Nat)).isLong = true := by
  have hpow : ∀ m ≤ n, Nat.pow 10 m ≤ 16 ^ n := fun m hm =>
    (Nat.pow_le_pow_left (by decide) m).trans (Nat.pow_le_pow_right (by decide) hm)
  unfold Number.isLong Number.digitLimit
  dsimp only
  rw [Int.natAbs_natCast]
  exact decide_eq_true (hpow _ h)

/-- A program that cannot be read, but is not refused as one: the number that is not expected has
more digits than may be written. -/
theorem parse_crowded :
    ∃ tokens, tokenize (String.ofList (crowded Number.maxDigits)) = .ok tokens ∧
      parse (crowded Number.maxDigits) tokens = .error ⟨.longNumber, some 1, none⟩ := by
  obtain ⟨tokens, htokens, hmap⟩ := tokenize_crowded Number.maxDigits
  refine ⟨tokens, by rwa [tokenize, String.toList_ofList], ?_⟩
  rw [parse_name_number _ hmap, if_pos (isLong_pow (Nat.le_refl _))]

end EventFlow.Program
