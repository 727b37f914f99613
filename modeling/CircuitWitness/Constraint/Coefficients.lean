import CircuitWitness.Constraint.Term
import CircuitWitness.Field.Codec

/-!
# The coefficient table

Constraints name their coefficients by id. A table starts with `0, 1, 2, -1, -2` and holds no
element twice. Adding an element that is present gives its id: a reserved element is found by
comparison, any other one through an index of ids that is kept beside the elements. That no element
stands twice and that the index is the one of the elements are part of the type.

Results:
* `nodup_reserved`: the reserved elements differ.
* `find?_indexOf`: the index finds an element where it stands.
* `id?_eq`: so do comparison and index together.
-/

namespace CircuitWitness

open PrimeField

variable {F : PrimeField}

/-! ## Reserved coefficients -/

/-- The elements that every table starts with, by id (`reserved_coeffs`). -/
def reservedCoeffs (F : PrimeField) : List F.Elem :=
  [0, 1, Elem.ofNat 2, -1, -(Elem.ofNat 2)]

/-- The id of an element that every table starts with (the comparisons in `add_coeff` and
    `from_coefficients`). -/
def reservedId? (x : F.Elem) : Option CoeffId :=
  if x = 0 then some CoeffId.zero
  else if x = 1 then some CoeffId.one
  else if x = Elem.ofNat 2 then some CoeffId.two
  else if x = -1 then some CoeffId.minusOne
  else if x = -(Elem.ofNat 2) then some CoeffId.minusTwo
  else none

theorem nodup_reserved (F : PrimeField) : (reservedCoeffs F).Nodup := by
  have h := F.five_le
  have two : 2 % F.modulus = 2 := Nat.mod_eq_of_lt (by omega)
  have minusOne : (F.modulus - 1) % F.modulus = F.modulus - 1 := Nat.mod_eq_of_lt (by omega)
  have minusTwo : (F.modulus - 2) % F.modulus = F.modulus - 2 := Nat.mod_eq_of_lt (by omega)
  simp only [reservedCoeffs, List.nodup_cons, List.mem_cons, List.not_mem_nil, Elem.ext_iff,
    Elem.val_zero, Elem.val_one, Elem.val_ofNat, Elem.val_neg, two, minusOne, minusTwo]
  simp
  omega

/-- The comparisons find a reserved element where it stands. -/
theorem reservedId?_eq (x : F.Elem) :
    reservedId? x = ((reservedCoeffs F).idxOf? x).map UInt32.ofNat := by
  unfold reservedId? reservedCoeffs
  simp only [List.idxOf?_cons, List.idxOf?_nil, beq_iff_eq, eq_comm (b := x)]
  repeat' split
  all_goals rfl

/-! ## The index -/

/-- The index with the ids of some more elements, which are numbered from `start` on. -/
def indexFrom (ids : OrderedMap Nat CoeffId) (start : Nat) : List F.Elem → OrderedMap Nat CoeffId
  | [] => ids
  | x :: rest => indexFrom (ids.insert x.val (UInt32.ofNat start)) (start + 1) rest

/-- The ids of the elements after the reserved ones, by representative. -/
def indexOf (extra : List F.Elem) : OrderedMap Nat CoeffId :=
  indexFrom .empty (reservedCoeffs F).length extra

theorem indexFrom_concat (ids : OrderedMap Nat CoeffId) (start : Nat) (l : List F.Elem)
    (x : F.Elem) : indexFrom ids start (l ++ [x])
      = (indexFrom ids start l).insert x.val (UInt32.ofNat (start + l.length)) := by
  induction l generalizing ids start with
  | nil => rfl
  | cons y l ih =>
    rw [List.cons_append, indexFrom, ih, List.length_cons, Nat.add_right_comm, Nat.add_assoc]
    rfl

/-- One more element is one more entry. -/
theorem indexOf_concat (extra : List F.Elem) (x : F.Elem) :
    indexOf (extra ++ [x]) = (indexOf extra).insert x.val
      (UInt32.ofNat (reservedCoeffs F ++ extra).length) := by
  rw [indexOf, indexFrom_concat, List.length_append]
  rfl

theorem find?_indexFrom (ids : OrderedMap Nat CoeffId) (start : Nat) {l : List F.Elem}
    (distinct : l.Nodup) (x : F.Elem) : (indexFrom ids start l).find? x.val
      = ((l.idxOf? x).map fun i => UInt32.ofNat (i + start)).or (ids.find? x.val) := by
  induction l generalizing ids start with
  | nil => rfl
  | cons y l ih =>
    obtain ⟨fresh, distinct⟩ := List.nodup_cons.1 distinct
    rw [indexFrom, ih _ _ distinct, OrderedMap.find?_insert, List.idxOf?_cons]
    by_cases same : y = x
    · subst same
      simp [List.idxOf?_eq_none_iff.2 fresh]
    · have other : x.val ≠ y.val := fun h => same (Elem.ext h.symm)
      have shifted : (fun i => UInt32.ofNat (i + (start + 1)))
          = (fun i => UInt32.ofNat (i + start)) ∘ (· + 1) := by
        funext i
        rw [Function.comp_apply, Nat.add_assoc, Nat.add_comm start]
      rw [if_neg other, if_neg (by simpa using same), Option.map_map, shifted]

/-- The index finds an element where it stands. -/
theorem find?_indexOf {extra : List F.Elem} (distinct : extra.Nodup) (x : F.Elem) :
    (indexOf extra).find? x.val
      = (extra.idxOf? x).map fun i => UInt32.ofNat (i + (reservedCoeffs F).length) := by
  rw [indexOf, find?_indexFrom _ _ distinct, OrderedMap.find?_empty, Option.or_none]

/-- The reserved elements are searched first, then the index. -/
theorem idxOf?_reserved_append {extra : List F.Elem} (distinct : (reservedCoeffs F ++ extra).Nodup)
    (x : F.Elem) :
    (((reservedCoeffs F).idxOf? x).map UInt32.ofNat).or ((indexOf extra).find? x.val)
      = ((reservedCoeffs F ++ extra).idxOf? x).map UInt32.ofNat := by
  have appended := @List.findIdx?_append _ (reservedCoeffs F) extra (· == x)
  rw [find?_indexOf (List.nodup_append.1 distinct).2.1]
  simp only [List.idxOf?, appended, Option.map_or, Option.map_map]
  rfl

/-- A new element at the end leaves the elements distinct. -/
theorem nodup_append_concat {α : Type} {l m : List α} {x : α} (distinct : (l ++ m).Nodup)
    (fresh : x ∉ l ++ m) : (l ++ (m ++ [x])).Nodup := by
  rw [← List.append_assoc, List.nodup_append]
  refine ⟨distinct, by simp, ?_⟩
  intro a ha b hb same
  rw [List.mem_singleton] at hb
  exact fresh (hb ▸ same ▸ ha)

/-! ## Tables -/

/-- A table of distinct coefficients, the reserved ones first, with the index of the others
    (`CoeffTable`). -/
structure CoeffTable (F : PrimeField) where
  extra : List F.Elem
  ids : OrderedMap Nat CoeffId
  nodup : (reservedCoeffs F ++ extra).Nodup
  indexed : ids = indexOf extra

/-- Why a list of elements is no coefficient table (the `Error` of `CoeffTable`). -/
inductive CoeffTable.Error where
  /-- The element with this id is not the reserved one. -/
  | reservedMismatch (id : CoeffId)
  /-- An element stands in two places. -/
  | duplicate (value : Nat) (first second : CoeffId)
deriving DecidableEq, Repr

/-- The error in words. -/
def CoeffTable.Error.message : CoeffTable.Error → String
  | .reservedMismatch id =>
    s!"coefficient table must start with [0, 1, 2, -1, -2], mismatch at id {id.toNat}"
  | .duplicate value first second =>
    s!"coefficient {value} is registered twice (ids {first.toNat} and {second.toNat})"

namespace CoeffTable

/-- The table of the reserved coefficients (`CoeffTable.new`). -/
def empty : CoeffTable F := ⟨[], .empty, by simpa using nodup_reserved F, rfl⟩

instance : Inhabited (CoeffTable F) := ⟨empty⟩

/-- All coefficients, by id (`coefficients`). -/
def toList (t : CoeffTable F) : List F.Elem := reservedCoeffs F ++ t.extra

/-- The number of coefficients (`CoeffTable.len`). -/
def size (t : CoeffTable F) : Nat := t.toList.length

/-- The coefficient with an id (`CoeffTable.get`). -/
def get? (t : CoeffTable F) (id : CoeffId) : Option F.Elem := t.toList[id.toNat]?

/-! ## Additions -/

/-- The id of an element that the table holds: by comparison, else through the index (in
    `add_coeff`). -/
def id? (t : CoeffTable F) (x : F.Elem) : Option CoeffId := (reservedId? x).or (t.ids.find? x.val)

theorem id?_eq (t : CoeffTable F) (x : F.Elem) :
    t.id? x = (t.toList.idxOf? x).map UInt32.ofNat := by
  rw [id?, reservedId?_eq, t.indexed, idxOf?_reserved_append t.nodup, toList]

theorem id?_eq_none_iff {t : CoeffTable F} {x : F.Elem} : t.id? x = none ↔ x ∉ t.toList := by
  rw [id?_eq, Option.map_eq_none_iff, List.idxOf?_eq_none_iff]

/-- The table with one more element, which gets the next id (in `add_coeff`). -/
def push (t : CoeffTable F) (x : F.Elem) (fresh : x ∉ t.toList) : CoeffTable F where
  extra := t.extra ++ [x]
  ids := t.ids.insert x.val (UInt32.ofNat t.size)
  nodup := nodup_append_concat t.nodup fresh
  indexed := by rw [indexOf_concat, t.indexed, size, toList]

/-- The id of an element, and the table that holds it (`add_coeff`). -/
def add (t : CoeffTable F) (x : F.Elem) : CoeffId × CoeffTable F :=
  match known : t.id? x with
  | some id => (id, t)
  | none => (UInt32.ofNat t.size, t.push x (id?_eq_none_iff.1 known))

/-- The term of a coefficient and a wire, and the table that holds the coefficient
    (`CoeffTable.make_term`). -/
def addTerm (t : CoeffTable F) (x : F.Elem) (wire : WireId) : Term × CoeffTable F :=
  let (id, t') := t.add x
  (⟨id, wire⟩, t')

/-! ## Tables from lists -/

/-- The first reserved id at which a list differs from the reserved coefficients (the first loop of
    `from_coefficients`). -/
def mismatch? (xs : List F.Elem) : Option Nat :=
  (List.range (reservedCoeffs F).length).find? fun i => xs[i]? ≠ (reservedCoeffs F)[i]?

/-- The index with the ids of some more elements, which are numbered from `start` on; an element
    that is reserved or stands in the index is a duplicate (the second loop of
    `from_coefficients`). -/
def indexDistinct (ids : OrderedMap Nat CoeffId) (start : Nat) :
    List F.Elem → Except Error (OrderedMap Nat CoeffId)
  | [] => .ok ids
  | x :: rest =>
    match (((reservedCoeffs F).idxOf? x).map UInt32.ofNat).or (ids.find? x.val) with
    | some first => .error (.duplicate x.val first (UInt32.ofNat start))
    | none => indexDistinct (ids.insert x.val (UInt32.ofNat start)) (start + 1) rest

/-- One step of the numbering, after some elements: the next one is a duplicate, or there is one
    element more. -/
theorem indexDistinct_cons {before : List F.Elem} (distinct : (reservedCoeffs F ++ before).Nodup)
    (x : F.Elem) (rest : List F.Elem) :
    indexDistinct (indexOf before) (reservedCoeffs F ++ before).length (x :: rest)
      = match (reservedCoeffs F ++ before).idxOf? x with
        | some i => .error (.duplicate x.val (UInt32.ofNat i)
          (UInt32.ofNat (reservedCoeffs F ++ before).length))
        | none => indexDistinct (indexOf (before ++ [x]))
          (reservedCoeffs F ++ (before ++ [x])).length rest := by
  have longer : (reservedCoeffs F ++ (before ++ [x])).length
      = (reservedCoeffs F ++ before).length + 1 := by
    rw [← List.append_assoc, List.length_append]
    rfl
  rw [indexDistinct, idxOf?_reserved_append distinct, longer, indexOf_concat]
  cases (reservedCoeffs F ++ before).idxOf? x <;> rfl

/-- Elements that can be numbered are distinct, and they are numbered in the index. -/
theorem indexDistinct_ok {before rest : List F.Elem} {ids : OrderedMap Nat CoeffId}
    (distinct : (reservedCoeffs F ++ before).Nodup)
    (h : indexDistinct (indexOf before) (reservedCoeffs F ++ before).length rest = .ok ids) :
    (reservedCoeffs F ++ (before ++ rest)).Nodup ∧ ids = indexOf (before ++ rest) := by
  induction rest generalizing before with
  | nil =>
    rw [List.append_nil]
    exact ⟨distinct, (Except.ok.inj h).symm⟩
  | cons x rest ih =>
    rw [indexDistinct_cons distinct] at h
    split at h
    · cases h
    · next absent =>
      rw [List.append_cons before x rest]
      exact ih (nodup_append_concat distinct (List.idxOf?_eq_none_iff.1 absent)) h

theorem indexDistinct_empty_ok {extra : List F.Elem} {ids : OrderedMap Nat CoeffId}
    (h : indexDistinct .empty (reservedCoeffs F).length extra = .ok ids) :
    (reservedCoeffs F ++ extra).Nodup ∧ ids = indexOf extra :=
  @indexDistinct_ok F [] extra ids empty.nodup h

/-- The table with the given coefficients by id (`from_coefficients`). -/
def ofList (xs : List F.Elem) : Except Error (CoeffTable F) :=
  match mismatch? xs with
  | some i => .error (.reservedMismatch (UInt32.ofNat i))
  | none =>
    let extra := xs.drop (reservedCoeffs F).length
    match h : indexDistinct .empty (reservedCoeffs F).length extra with
    | .error e => .error e
    | .ok ids => .ok ⟨extra, ids, (indexDistinct_empty_ok h).1, (indexDistinct_empty_ok h).2⟩

/-! ## Display -/

/-- A coefficient in decimal, or its id if the table has none there (`coeff_to_string`). -/
def text (t : CoeffTable F) (id : CoeffId) : String :=
  match t.get? id with
  | some x => x.decimal
  | none => s!"<coeff #{id.toNat}>"

end CoeffTable

end CircuitWitness
