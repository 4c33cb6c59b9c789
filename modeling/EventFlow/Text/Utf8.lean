/-!
Texts as bytes in UTF-8.

A sequence of bytes begins with a leading byte, which says how many more there are and which
values they may take; the ranges leave out overlong forms, surrogates and what is beyond the last
code point. Decoding fails at the first byte of the first bad sequence.
-/

namespace EventFlow.Text.Utf8

inductive Reason where
  | invalidStart
  | invalidContinuation
  | unexpectedEnd
  deriving DecidableEq, Repr

def Reason.text : Reason → String
  | .invalidStart => "invalid start byte"
  | .invalidContinuation => "invalid continuation byte"
  | .unexpectedEnd => "unexpected end of data"

/-- Why the bytes are no text, and where the bad sequence begins. -/
structure Fault where
  reason : Reason
  start : Nat
  deriving DecidableEq, Repr

/-- What a leading byte contributes, and the ranges of the bytes that follow it. -/
def lead? (b : Nat) : Option (Nat × List (Nat × Nat)) :=
  let any := (0x80, 0xbf)
  if b < 0x80 then some (b, [])
  else if b < 0xc2 then none
  else if b < 0xe0 then some (b - 0xc0, [any])
  else if b = 0xe0 then some (0, [(0xa0, 0xbf), any])
  else if b = 0xed then some (0xd, [(0x80, 0x9f), any])
  else if b < 0xf0 then some (b - 0xe0, [any, any])
  else if b = 0xf0 then some (0, [(0x90, 0xbf), any, any])
  else if b < 0xf4 then some (b - 0xf0, [any, any, any])
  else if b = 0xf4 then some (4, [(0x80, 0x8f), any, any])
  else none

/-- The code point of a sequence, of which `value` has been read. -/
def follow (value : Nat) : List (Nat × Nat) → List UInt8 → Except Reason Nat
  | [], _ => .ok value
  | _ :: _, [] => .error .unexpectedEnd
  | (low, high) :: ranges, b :: rest =>
    if low ≤ b.toNat && b.toNat ≤ high then follow (value * 64 + b.toNat % 64) ranges rest
    else .error .invalidContinuation

/-- The characters of the bytes from `start` on. -/
def decodeFrom (start : Nat) : List UInt8 → Except Fault (List Char)
  | [] => .ok []
  | b :: rest =>
    match lead? b.toNat with
    | none => .error ⟨.invalidStart, start⟩
    | some (value, ranges) =>
      match follow value ranges rest with
      | .error reason => .error ⟨reason, start⟩
      | .ok code => do
        let more ← decodeFrom (start + 1 + ranges.length) (rest.drop ranges.length)
        return Char.ofNat code :: more
termination_by bytes => bytes.length

def decode (bytes : List UInt8) : Except Fault String := do
  return String.ofList (← decodeFrom 0 bytes)

def encode (s : String) : List UInt8 := s.toUTF8.toList

end EventFlow.Text.Utf8
