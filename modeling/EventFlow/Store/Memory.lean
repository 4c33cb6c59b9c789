import EventFlow.Store.Basic
import EventFlow.Text.Line
import EventFlow.Text.Order

/-!
A store in memory: a list of paths and texts, with each path once.

Paths are taken as they are, and there are no directories: a directory is the start of a path.
-/

namespace EventFlow

structure Memory where
  files : List (String × String) := []
  distinct : (files.map (·.1)).Nodup := by simp
  deriving DecidableEq, Repr

namespace Memory

/-- Sets the text of a file, in place if it is there and at the end otherwise. -/
def put (path text : String) : List (String × String) → List (String × String)
  | [] => [(path, text)]
  | (p, t) :: rest => if p = path then (p, text) :: rest else (p, t) :: put path text rest

theorem mem_put (path text : String) (files : List (String × String)) (p : String)
    (h : p ∈ (put path text files).map (·.1)) : p = path ∨ p ∈ files.map (·.1) := by
  induction files with
  | nil => simpa [put] using h
  | cons file rest ih =>
    unfold put at h
    split at h <;> grind

theorem nodup_put (path text : String) (files : List (String × String))
    (h : (files.map (·.1)).Nodup) : ((put path text files).map (·.1)).Nodup := by
  induction files with
  | nil => simp [put]
  | cons file rest ih =>
    simp only [List.map_cons, List.nodup_cons] at h
    unfold put
    split
    · simpa using h
    · next hne =>
      refine List.nodup_cons.2 ⟨?_, ih h.2⟩
      intro hp
      rcases mem_put path text rest file.1 hp with heq | hp
      · exact hne heq
      · exact h.1 hp

def text? (m : Memory) (path : String) : Option String := m.files.lookup path

/-- What the paths of a directory begin with. -/
def directoryStart (root : String) : String :=
  if root.isEmpty then ""
  else String.ofList ((root.toList.reverse.dropWhile (· = '/')).reverse ++ ['/'])

instance : Store Memory where
  read m path :=
    match m.text? path with
    | some text => .ok text
    | none => .error (.notFound path)
  write m path text := .ok ⟨put path text m.files, nodup_put path text m.files m.distinct⟩
  has m path := (m.text? path).isSome
  list m root := Text.ascending ((m.files.map (·.1)).filter fun path =>
    Text.startsWith (directoryStart root) path.toList)

end Memory

end EventFlow
