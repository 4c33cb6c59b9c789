import EventFlow.Text.Utf8

/-!
File stores: texts under paths.

A path is a text with `/` between its parts, and is relative to the store.
-/

namespace EventFlow

/-- Why a file cannot be read or written. -/
inductive Store.Fault where
  | notFound (path : String)
  | fileExists
  | notADirectory
  | isADirectory
  | undecodable (fault : Text.Utf8.Fault)
  deriving DecidableEq, Repr

def Store.Fault.text : Store.Fault → String
  | .notFound path => s!"File not found: {path}"
  | .fileExists => "A file has the name of a directory"
  | .notADirectory => "A file stands where a directory should be"
  | .isADirectory => "A directory cannot be written to"
  | .undecodable fault => fault.reason.text

class Store (σ : Type) where
  read : σ → (path : String) → Except Store.Fault String
  write : σ → (path text : String) → Except Store.Fault σ
  /-- Whether there is something under the path. -/
  has : σ → (path : String) → Bool
  /-- The paths of all files below a directory, in ascending order; an empty root is the store. -/
  list : σ → (root : String) → List String

end EventFlow
