import EventFlow.Proofs.Token.Inline

/-! Document values that texts can give back as they are.

A value is exact if its numbers are integers that are not too long to be written and no object in
it has a name twice. Whoever writes such a value and reads it again gets the same value, with the
members of each object in the same order:

    (pairs.map key).Nodup → ofPairs pairs = pairs -/

namespace EventFlow.Json

variable {q p r : Json → Bool}

mutual

/-- Whether a property holds of a value and of all values in it. -/
def everywhere (p : Json → Bool) : Json → Bool
  | .array items => p (.array items) && everywhereIn p items
  | .object members => p (.object members) && everywhereUnder p members
  | v => p v

def everywhereIn (p : Json → Bool) : List Json → Bool
  | [] => true
  | v :: vs => everywhere p v && everywhereIn p vs

def everywhereUnder (p : Json → Bool) : Members → Bool
  | [] => true
  | (_, v) :: rest => everywhere p v && everywhereUnder p rest

end

mutual

/-- What two properties give at each place, they give everywhere. -/
theorem everywhere_of_and (h : ∀ v, p v = true → q v = true → r v = true) (v : Json)
    (hp : everywhere p v = true) (hq : everywhere q v = true) :
    everywhere r v = true := by
  match v with
  | .array items =>
    rw [everywhere, Bool.and_eq_true] at hp hq ⊢
    exact ⟨h _ hp.1 hq.1, everywhereIn_of_and h items hp.2 hq.2⟩
  | .object members =>
    rw [everywhere, Bool.and_eq_true] at hp hq ⊢
    exact ⟨h _ hp.1 hq.1, everywhereUnder_of_and h members hp.2 hq.2⟩
  | .null | .bool _ | .number _ | .text _ => exact h _ hp hq

theorem everywhereIn_of_and (h : ∀ v, p v = true → q v = true → r v = true) (vs : List Json)
    (hp : everywhereIn p vs = true) (hq : everywhereIn q vs = true) :
    everywhereIn r vs = true := by
  match vs with
  | [] => rfl
  | v :: vs =>
    rw [everywhereIn, Bool.and_eq_true] at hp hq ⊢
    exact ⟨everywhere_of_and h v hp.1 hq.1, everywhereIn_of_and h vs hp.2 hq.2⟩

theorem everywhereUnder_of_and (h : ∀ v, p v = true → q v = true → r v = true) (ms : Members)
    (hp : everywhereUnder p ms = true) (hq : everywhereUnder q ms = true) :
    everywhereUnder r ms = true := by
  match ms with
  | [] => rfl
  | (_, v) :: ms =>
    rw [everywhereUnder, Bool.and_eq_true] at hp hq ⊢
    exact ⟨everywhere_of_and h v hp.1 hq.1, everywhereUnder_of_and h ms hp.2 hq.2⟩

end

theorem everywhere_mono (h : ∀ v, p v = true → q v = true) (v : Json) (hv : everywhere p v = true) :
    everywhere q v = true :=
  everywhere_of_and (fun v hp _ => h v hp) v hv hv

/-- Whether a value is kept when it is written and read, its parts aside. -/
def isExactNode : Json → Bool
  | .number (.int i) => !(Number.int i).isLong
  | .number (.double _) => false
  | .object members => decide ((members.map (·.1)).Nodup)
  | _ => true

/-- No fractions, no long integers, and no name twice in an object. -/
def isExact (v : Json) : Bool := everywhere isExactNode v

theorem nodup_of_isExact {ms : Members} (h : isExact (.object ms) = true) :
    (ms.map (·.1)).Nodup := by
  rw [isExact, everywhere, Bool.and_eq_true] at h
  exact of_decide_eq_true h.1

def isIntegralNode : Json → Bool
  | .number (.double _) => false
  | .object members => decide ((members.map (·.1)).Nodup)
  | _ => true

/-- No fractions, and no name twice in an object; integers may be of any length. -/
def isIntegral (v : Json) : Bool := everywhere isIntegralNode v

/-- Whether a value is not too long to be written, its parts aside. -/
def isShortNode : Json → Bool
  | .number n => !n.isLong
  | _ => true

mutual

theorem isWritable_eq (v : Json) : v.isWritable = everywhere isShortNode v := by
  match v with
  | .array items =>
    rw [isWritable, everywhere, areWritable_eq items]
    rfl
  | .object members =>
    rw [isWritable, everywhere, membersWritable_eq members]
    rfl
  | .null | .bool _ | .number _ | .text _ => rfl

theorem areWritable_eq (vs : List Json) : areWritable vs = everywhereIn isShortNode vs := by
  match vs with
  | [] => rfl
  | v :: vs => rw [areWritable, everywhereIn, isWritable_eq v, areWritable_eq vs]

theorem membersWritable_eq (ms : Members) :
    membersWritable ms = everywhereUnder isShortNode ms := by
  match ms with
  | [] => rfl
  | (_, v) :: ms => rw [membersWritable, everywhereUnder, isWritable_eq v, membersWritable_eq ms]

end

theorem isWritable_of_isExact {v : Json} (h : v.isExact = true) : v.isWritable = true := by
  rw [isWritable_eq]
  refine everywhere_mono (fun w hw => ?_) v h
  cases w with
  | number n =>
    cases n with
    | int i => exact hw
    | double d => rfl
  | null | bool _ | text _ | array _ | object _ => rfl

/-- Data without fractions come back if they can be written. -/
theorem isExact_of_isWritable {v : Json} (h : v.isIntegral = true) (hw : v.isWritable = true) :
    v.isExact = true := by
  rw [isWritable_eq] at hw
  refine everywhere_of_and (fun w hp hq => ?_) v h hw
  cases w with
  | number n =>
    cases n with
    | int i => exact hq
    | double d => cases hp
  | null | bool _ | text _ | array _ | object _ => exact hp

def isCleanNode : Json → Bool
  | .object members => members.all fun m => Token.Inline.isCleanKey m.1
  | _ => true

/-- No name in the value looks like an identifier followed by a line break. -/
def hasCleanKeys (v : Json) : Bool := everywhere isCleanNode v

mutual

/-- How deep containers are nested. -/
def depth : Json → Nat
  | .array items => depthIn items + 1
  | .object members => depthUnder members + 1
  | _ => 0

def depthIn : List Json → Nat
  | [] => 0
  | v :: vs => max (depth v) (depthIn vs)

def depthUnder : Members → Nat
  | [] => 0
  | (_, v) :: rest => max (depth v) (depthUnder rest)

end

/-! ## Members -/

theorem set_of_not_mem {key : String} {value : Json} {members : Members}
    (h : key ∉ members.map (·.1)) : set key value members = members ++ [(key, value)] := by
  induction members with
  | nil => rfl
  | cons m members ih =>
    rw [List.map_cons, List.mem_cons, not_or] at h
    rw [set, if_neg fun e => h.1 e.symm, ih h.2]
    rfl

/-- Members with distinct names are kept as they are. -/
theorem ofPairs_of_nodup {pairs : Members} (h : (pairs.map (·.1)).Nodup) :
    ofPairs pairs = pairs := by
  suffices ∀ known : Members, ((known ++ pairs).map (·.1)).Nodup →
      pairs.foldl (fun members p => set p.1 p.2 members) known = known ++ pairs from
    this [] h
  intro known hknown
  induction pairs generalizing known with
  | nil => simp
  | cons m pairs ih =>
    obtain ⟨k, v⟩ := m
    have hnew : k ∉ known.map (·.1) := by
      rw [List.map_append, List.nodup_append] at hknown
      exact fun hk => hknown.2.2 k hk k (by simp) rfl
    show pairs.foldl _ (set k v known) = _
    rw [set_of_not_mem hnew]
    have happend : known ++ (k, v) :: pairs = known ++ [(k, v)] ++ pairs := List.append_cons ..
    rw [happend] at hknown ⊢
    exact ih (by simpa using (List.nodup_cons.1 h).2) _ hknown

end EventFlow.Json
