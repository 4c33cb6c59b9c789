import EventFlow.Number.Basic

/-!
Document values: null, booleans, numbers, texts, arrays and objects.

The members of an object are kept in the order in which their names first came up, and setting a
name again replaces its value in place:

    get? (set o k v) k = some v        keys (set o k v) = keys o, with k at the end if it is new
-/

namespace EventFlow

inductive Json where
  | null
  | bool (b : Bool)
  | number (n : Number)
  | text (s : String)
  | array (items : List Json)
  | object (members : List (String × Json))
  deriving Repr, Inhabited

namespace Json

abbrev Members := List (String × Json)

def int (i : Int) : Json := .number (.int i)

def text? : Json → Option String
  | .text s => some s
  | _ => none

def isNaN : Json → Bool
  | .number (.double .nan) => true
  | _ => false

/-! ## Members -/

/-- The value of the first member of that name. -/
def get? (key : String) : Members → Option Json
  | [] => none
  | (k, v) :: rest => if k = key then some v else get? key rest

/-- Sets the value of a member, in place if the name is there and at the end otherwise. -/
def set (key : String) (value : Json) : Members → Members
  | [] => [(key, value)]
  | (k, v) :: rest => if k = key then (k, value) :: rest else (k, v) :: set key value rest

/-- Members in the order in which their names first came up, with the last value of each. -/
def ofPairs (pairs : Members) : Members :=
  pairs.foldl (fun members (k, v) => set k v members) []

/-- Whether a value counts as nothing: null, false, zero, or without content. -/
def isVoid : Json → Bool
  | .null => true
  | .bool b => !b
  | .number n => n.same (.int 0)
  | .text s => s.isEmpty
  | .array items => items.isEmpty
  | .object members => members.isEmpty

/-! ## Long numbers -/

mutual

/-- Whether no number in the value is too long to be written. -/
def isWritable : Json → Bool
  | .number n => !n.isLong
  | .array items => areWritable items
  | .object members => membersWritable members
  | _ => true

def areWritable : List Json → Bool
  | [] => true
  | x :: xs => x.isWritable && areWritable xs

def membersWritable : Members → Bool
  | [] => true
  | (_, x) :: rest => x.isWritable && membersWritable rest

end

/-! ## Decidable equality -/

mutual

def decEq : (a b : Json) → Decidable (a = b)
  | .null, .null => .isTrue rfl
  | .bool a, .bool b =>
    if h : a = b then .isTrue (h ▸ rfl) else .isFalse fun e => h (by injection e)
  | .number a, .number b =>
    if h : a = b then .isTrue (h ▸ rfl) else .isFalse fun e => h (by injection e)
  | .text a, .text b =>
    if h : a = b then .isTrue (h ▸ rfl) else .isFalse fun e => h (by injection e)
  | .array a, .array b =>
    match decEqItems a b with
    | .isTrue h => .isTrue (h ▸ rfl)
    | .isFalse h => .isFalse fun e => h (by injection e)
  | .object a, .object b =>
    match decEqMembers a b with
    | .isTrue h => .isTrue (h ▸ rfl)
    | .isFalse h => .isFalse fun e => h (by injection e)
  | .null, .bool _ | .null, .number _ | .null, .text _ | .null, .array _ | .null, .object _
  | .bool _, .null | .bool _, .number _ | .bool _, .text _ | .bool _, .array _ | .bool _, .object _
  | .number _, .null | .number _, .bool _ | .number _, .text _ | .number _, .array _
  | .number _, .object _
  | .text _, .null | .text _, .bool _ | .text _, .number _ | .text _, .array _ | .text _, .object _
  | .array _, .null | .array _, .bool _ | .array _, .number _ | .array _, .text _
  | .array _, .object _
  | .object _, .null | .object _, .bool _ | .object _, .number _ | .object _, .text _
  | .object _, .array _ => .isFalse (by simp)

def decEqItems : (a b : List Json) → Decidable (a = b)
  | [], [] => .isTrue rfl
  | [], _ :: _ => .isFalse (by simp)
  | _ :: _, [] => .isFalse (by simp)
  | x :: xs, y :: ys =>
    match decEq x y, decEqItems xs ys with
    | .isTrue h, .isTrue k => .isTrue (by simp [h, k])
    | .isFalse h, _ => .isFalse (by simp [h])
    | _, .isFalse h => .isFalse (by simp [h])

def decEqMembers : (a b : Members) → Decidable (a = b)
  | [], [] => .isTrue rfl
  | [], _ :: _ => .isFalse (by simp)
  | _ :: _, [] => .isFalse (by simp)
  | (k, x) :: xs, (l, y) :: ys =>
    match (inferInstance : Decidable (k = l)), decEq x y, decEqMembers xs ys with
    | .isTrue h, .isTrue i, .isTrue j => .isTrue (by simp [h, i, j])
    | .isFalse h, _, _ => .isFalse (by simp [h])
    | _, .isFalse h, _ => .isFalse (by simp [h])
    | _, _, .isFalse h => .isFalse (by simp [h])

end

instance : DecidableEq Json := decEq

end Json

end EventFlow
