/-!
Complaints about a source text: what is wrong, and where.

A complaint is written as its place, the slice it arose in if there is one, and the reason:

    file:line [slice 'name']: reason
-/

namespace EventFlow

structure Complaint (φ : Type) where
  fault : φ
  line : Option Nat := none
  slice : Option String := none
  deriving DecidableEq, Repr

namespace Complaint

def map {φ ψ : Type} (f : φ → ψ) (c : Complaint φ) : Complaint ψ :=
  { fault := f c.fault, line := c.line, slice := c.slice }

/-- The file's name as messages give it. -/
def fileName (file : String) : String := if file.isEmpty then "<source>" else file

def place (file : String) (line : Option Nat) : String :=
  match line with
  | some n => s!"{fileName file}:{n}"
  | none => fileName file

/-- The complaint in words, given the words of its reason. -/
def message {φ : Type} (text : φ → String) (file : String) (c : Complaint φ) : String :=
  match c.slice with
  | some name => s!"{place file c.line} [slice '{name}']: {text c.fault}"
  | none => s!"{place file c.line}: {text c.fault}"

end Complaint

end EventFlow
