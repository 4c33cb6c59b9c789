import EventFlow.Text.Order

/-!
Type aliases: names that stand for the names of messages.

An alias is followed from name to name until one is reached that is no alias. What it stands for
is the message of that type, the message of that name, or no message at all.
-/

namespace EventFlow.Declaration

inductive AliasError where
  /-- The chain comes back to one of these names. -/
  | circular (names : List String)
  | tooLong
  deriving DecidableEq, Repr

/-- Names and what they stand for. -/
abbrev Names := List (String × String)

/-- The message that a name stands for, if any, where `visited` are the names already passed and at
most `steps` more may be passed. -/
def resolveAlias (aliases types : Names) (messages : List String) :
    (steps : Nat) → (visited : List String) → (name : String) → Except AliasError (Option String)
  | 0, _, _ => .error .tooLong
  | steps + 1, visited, name =>
    if visited.contains name then .error (.circular (Text.ascendingSet (name :: visited)))
    else
      match aliases.lookup name with
      | some target => resolveAlias aliases types messages steps (name :: visited) target
      | none =>
        match types.lookup name with
        | some message => .ok (some message)
        | none => .ok (if messages.contains name then some name else none)

end EventFlow.Declaration
