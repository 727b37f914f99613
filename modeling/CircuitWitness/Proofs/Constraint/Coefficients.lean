import CircuitWitness.Constraint.Coefficients
import Mathlib.Data.List.Nodup

/-!
# Coefficients and their ids

A table answers additions with ids. However many additions there are, and whatever comes between
two of them, an element has one id and an id has one element, and both stay as they are. The
elements of a table make the table again, with its index, so that later additions get the same
answers.

Results:
* `id?_add`, `id?_add_of_id?`: what one addition does to the ids.
* `id?_addAll`: what a run of additions does to them.
* `toList_ofList`, `ofList_toList`: a table is made of the elements that it holds.
* `ofList_error`: why a list of elements is refused.
* `interned`: one id for each element. The ids must fit into a word.
-/

namespace CircuitWitness

open PrimeField

namespace CoeffTable

variable {F : PrimeField} {t : CoeffTable F} {x y : F.Elem} {id : CoeffId}

/-! ## One addition -/

/-- An element that the table holds is answered with its id, another one gets the next id. -/
theorem add_cases (t : CoeffTable F) (x : F.Elem) :
    (∃ id, t.id? x = some id ∧ t.add x = (id, t)) ∨
      ∃ fresh : x ∉ t.toList, t.add x = (UInt32.ofNat t.size, t.push x fresh) := by
  unfold add
  split
  · next id known => exact .inl ⟨id, known, rfl⟩
  · next unknown => exact .inr ⟨id?_eq_none_iff.1 unknown, rfl⟩

theorem toList_push (fresh : x ∉ t.toList) : (t.push x fresh).toList = t.toList ++ [x] := by
  rw [toList, toList, push, List.append_assoc]

/-- Comparison and index find what they found before, and the new element. -/
theorem id?_push (fresh : x ∉ t.toList) (y : F.Elem) : (t.push x fresh).id? y
    = (t.id? y).or (if y = x then some (UInt32.ofNat t.size) else none) := by
  have unknown := Option.or_eq_none_iff.1 (id?_eq_none_iff.2 fresh)
  rw [id?, id?, push, OrderedMap.find?_insert, Option.or_assoc]
  congr 1
  by_cases same : y = x
  · rw [if_pos same, if_pos (congrArg Elem.val same), same, unknown.2, Option.none_or]
  · rw [if_neg same, if_neg fun h => same (Elem.ext h), Option.or_none]

/-- An element that is added has the id that it got. -/
theorem id?_add (t : CoeffTable F) (x : F.Elem) : (t.add x).2.id? x = some (t.add x).1 := by
  obtain ⟨id, known, same⟩ | ⟨fresh, pushed⟩ := t.add_cases x
  · rw [same, known]
  · rw [pushed, id?_push, id?_eq_none_iff.2 fresh, if_pos rfl, Option.none_or]

/-- The other elements keep their ids. -/
theorem id?_add_of_id? (known : t.id? y = some id) (x : F.Elem) :
    (t.add x).2.id? y = some id := by
  obtain ⟨id', -, same⟩ | ⟨fresh, pushed⟩ := t.add_cases x
  · rw [same, known]
  · rw [pushed, id?_push, known, Option.some_or]

theorem toList_prefix_add (t : CoeffTable F) (x : F.Elem) : t.toList <+: (t.add x).2.toList := by
  obtain ⟨id, -, same⟩ | ⟨fresh, pushed⟩ := t.add_cases x
  · exact ⟨[], by rw [same, List.append_nil]⟩
  · rw [pushed, toList_push]
    exact List.prefix_append t.toList [x]

/-- The id of an element holds it, as long as ids fit into a word. -/
theorem get?_of_id? (small : t.size ≤ wordRange) (known : t.id? x = some id) :
    t.get? id = some x := by
  rw [id?_eq, Option.map_eq_some_iff] at known
  obtain ⟨i, found, rfl⟩ := known
  obtain ⟨range, listed, -⟩ := List.idxOf?_eq_some_iff.1 found
  have place : i % 2 ^ 32 = i := Nat.mod_eq_of_lt (Nat.lt_of_lt_of_le range small)
  rw [get?, UInt32.toNat_ofNat', place, List.getElem?_eq_getElem range, listed]

/-- Ids are equal exactly if their elements are. -/
theorem id_eq_iff (small : t.size ≤ wordRange) {id' : CoeffId} (known : t.id? x = some id)
    (known' : t.id? y = some id') : id = id' ↔ x = y := by
  constructor
  · rintro rfl
    exact Option.some.inj ((get?_of_id? small known).symm.trans (get?_of_id? small known'))
  · rintro rfl
    exact Option.some.inj (known.symm.trans known')

/-! ## Runs of additions -/

/-- The ids of some elements that are added one after the other, and the table that holds them. -/
def addAll (t : CoeffTable F) : List F.Elem → List CoeffId × CoeffTable F
  | [] => ([], t)
  | x :: xs =>
    let (id, t₁) := t.add x
    let (ids, t₂) := t₁.addAll xs
    (id :: ids, t₂)

/-- An element that has an id keeps it in a run of additions. -/
theorem id?_addAll_of_id? (known : t.id? y = some id) (xs : List F.Elem) :
    (t.addAll xs).2.id? y = some id := by
  induction xs generalizing t with
  | nil => exact known
  | cons x xs ih => exact ih (id?_add_of_id? known x)

/-- At the end of a run, each element has the id that it got in the run. -/
theorem id?_addAll (t : CoeffTable F) (xs : List F.Elem) :
    List.Forall₂ (fun x id => (t.addAll xs).2.id? x = some id) xs (t.addAll xs).1 := by
  induction xs generalizing t with
  | nil => exact .nil
  | cons x xs ih => exact .cons (id?_addAll_of_id? (t.id?_add x) xs) (ih (t.add x).2)

theorem toList_prefix_addAll (t : CoeffTable F) (xs : List F.Elem) :
    t.toList <+: (t.addAll xs).2.toList := by
  induction xs generalizing t with
  | nil => exact List.prefix_refl _
  | cons x xs ih => exact (t.toList_prefix_add x).trans (ih (t.add x).2)

/-! ## Tables from lists -/

/-- Without a mismatch a list starts with the reserved elements. -/
theorem reserved_append_drop {xs : List F.Elem} (h : mismatch? xs = none) :
    reservedCoeffs F ++ xs.drop (reservedCoeffs F).length = xs := by
  rw [mismatch?, List.find?_eq_none] at h
  have front : xs.take (reservedCoeffs F).length = reservedCoeffs F := by
    refine List.ext_getElem? fun i => ?_
    rw [List.getElem?_take]
    split
    · next bound => simpa using h i (List.mem_range.2 bound)
    · next bound => exact (List.getElem?_eq_none (by omega)).symm
  nth_rewrite 1 [← front]
  exact List.take_append_drop _ xs

/-- A list starts with the reserved elements exactly if it has no mismatch. -/
theorem mismatch?_eq_none_iff {xs : List F.Elem} :
    mismatch? xs = none ↔ reservedCoeffs F <+: xs := by
  constructor
  · intro h
    exact ⟨_, reserved_append_drop h⟩
  · rintro ⟨rest, rfl⟩
    rw [mismatch?, List.find?_eq_none]
    intro i hi
    rw [List.getElem?_append_left (List.mem_range.1 hi)]
    simp

/-- Distinct elements can be numbered. -/
theorem indexDistinct_of_nodup {before rest : List F.Elem}
    (distinct : (reservedCoeffs F ++ (before ++ rest)).Nodup) :
    indexDistinct (indexOf before) (reservedCoeffs F ++ before).length rest
      = .ok (indexOf (before ++ rest)) := by
  induction rest generalizing before with
  | nil => rw [List.append_nil]; rfl
  | cons x rest ih =>
    have numbered : (reservedCoeffs F ++ before).Nodup ∧ x ∉ reservedCoeffs F ++ before := by
      rw [← List.append_assoc] at distinct
      have parts := List.nodup_append.1 distinct
      exact ⟨parts.1, fun mem => parts.2.2 x mem x List.mem_cons_self rfl⟩
    rw [List.append_cons] at distinct ⊢
    rw [indexDistinct_cons numbered.1, List.idxOf?_eq_none_iff.2 numbered.2]
    exact ih distinct

/-- The first element that cannot be numbered stands among those before it, which are distinct. -/
theorem indexDistinct_error {before rest : List F.Elem} {e : Error}
    (distinct : (reservedCoeffs F ++ before).Nodup)
    (h : indexDistinct (indexOf before) (reservedCoeffs F ++ before).length rest = .error e) :
    ∃ seen x later i, rest = seen ++ x :: later ∧ (reservedCoeffs F ++ (before ++ seen)).Nodup ∧
      (reservedCoeffs F ++ (before ++ seen)).idxOf? x = some i ∧
      e = .duplicate x.val (UInt32.ofNat i)
        (UInt32.ofNat (reservedCoeffs F ++ (before ++ seen)).length) := by
  induction rest generalizing before with
  | nil => cases h
  | cons x rest ih =>
    rw [indexDistinct_cons distinct] at h
    split at h
    · next i found =>
      refine ⟨[], x, rest, i, rfl, ?_, ?_, ?_⟩
      · rwa [List.append_nil]
      · rwa [List.append_nil]
      · rw [List.append_nil]
        exact (Except.error.inj h).symm
    · next absent =>
      obtain ⟨seen, y, later, i, rfl, distinct', found, reported⟩ :=
        ih (nodup_append_concat distinct (List.idxOf?_eq_none_iff.1 absent)) h
      rw [← List.append_cons] at distinct' found reported
      exact ⟨x :: seen, y, later, i, rfl, distinct', found, reported⟩

/-- A table of coefficients holds those that it was made of. -/
theorem toList_ofList {xs : List F.Elem} (h : ofList xs = .ok t) : t.toList = xs := by
  unfold ofList at h
  split at h
  · cases h
  · next reserved =>
    dsimp only at h
    split at h
    · cases h
    · obtain rfl := Except.ok.inj h
      exact reserved_append_drop reserved

/-- The coefficients of a table make up the table. -/
theorem ofList_toList (t : CoeffTable F) : ofList t.toList = .ok t := by
  have extra : t.toList.drop (reservedCoeffs F).length = t.extra := List.drop_left
  have distinct : indexDistinct .empty (reservedCoeffs F).length
      (t.toList.drop (reservedCoeffs F).length) = .ok (indexOf t.extra) := by
    rw [extra]
    exact @indexDistinct_of_nodup F [] t.extra t.nodup
  have reserved : mismatch? t.toList = none :=
    mismatch?_eq_none_iff.2 (List.prefix_append _ _)
  unfold ofList
  rw [reserved]
  dsimp only
  split
  · next refused =>
    rw [distinct] at refused
    cases refused
  · next ids numbered =>
    rw [distinct] at numbered
    obtain rfl := Except.ok.inj numbered
    obtain ⟨e, ids, nodup, indexed⟩ := t
    subst indexed
    simp only [extra]

/-- The first reserved id at which a list does not hold the reserved element. -/
def FirstMismatch (xs : List F.Elem) (i : ℕ) : Prop :=
  i < (reservedCoeffs F).length ∧ xs[i]? ≠ (reservedCoeffs F)[i]? ∧
    ∀ j < i, xs[j]? = (reservedCoeffs F)[j]?

/-- The first place `j` of a list whose element stood before, at `i`. -/
def FirstRepeat (xs : List F.Elem) (x : F.Elem) (i j : ℕ) : Prop :=
  i < j ∧ xs[i]? = some x ∧ xs[j]? = some x ∧ (xs.take j).Nodup

/-- Why a list of elements is no table. -/
inductive Refused (xs : List F.Elem) : Error → Prop where
  | reservedMismatch {i : ℕ} (first : FirstMismatch xs i) :
    Refused xs (.reservedMismatch (UInt32.ofNat i))
  | duplicate {x : F.Elem} {i j : ℕ} (reserved : reservedCoeffs F <+: xs)
    (first : FirstRepeat xs x i j) :
    Refused xs (.duplicate x.val (UInt32.ofNat i) (UInt32.ofNat j))

theorem ofList_error {xs : List F.Elem} {e : Error} (h : ofList xs = .error e) : Refused xs e := by
  unfold ofList at h
  split at h
  · next i differs =>
    obtain rfl := Except.error.inj h
    rw [mismatch?, List.find?_range_eq_some] at differs
    obtain ⟨here, range, before⟩ := differs
    refine .reservedMismatch ⟨List.mem_range.1 range, by simpa using here, fun j hj => ?_⟩
    simpa using before j hj
  · next reserved =>
    dsimp only at h
    split at h
    · next e' refused =>
      obtain rfl := Except.error.inj h
      obtain ⟨seen, x, later, i, rest, distinct, found, rfl⟩ :=
        @indexDistinct_error F [] _ _ empty.nodup refused
      rw [List.nil_append] at distinct found
      have parts : xs = (reservedCoeffs F ++ seen) ++ x :: later := by
        rw [List.append_assoc, ← rest, reserved_append_drop reserved]
      obtain ⟨range, listed, -⟩ := List.idxOf?_eq_some_iff.1 found
      refine .duplicate (mismatch?_eq_none_iff.1 reserved) ⟨range, ?_, ?_, ?_⟩
      · rw [parts, List.getElem?_append_left range, List.getElem?_eq_getElem range, listed]
      · rw [parts, List.nil_append, List.getElem?_append_right (Nat.le_refl _), Nat.sub_self]
        rfl
      · rwa [parts, List.nil_append, List.take_left]
    · cases h

/-- A list makes a table exactly if it starts with the reserved elements and none stands twice. -/
theorem exists_ofList_iff {xs : List F.Elem} :
    (∃ t, ofList xs = .ok t) ↔ reservedCoeffs F <+: xs ∧ xs.Nodup := by
  constructor
  · rintro ⟨t, made⟩
    rw [← toList_ofList made]
    exact ⟨List.prefix_append _ _, t.nodup⟩
  · rintro ⟨⟨extra, rfl⟩, distinct⟩
    exact ⟨_, ofList_toList ⟨extra, indexOf extra, distinct, rfl⟩⟩

/-! ## One id for each element -/

/-- The answers to a run of additions, which ends with a table. -/
structure Interns (t : CoeffTable F) (xs : List F.Elem) (ids : List CoeffId)
    (last : CoeffTable F) : Prop where
  /-- The id of an addition holds the element that was added, whatever is added later. -/
  holds : List.Forall₂ (fun x id => last.get? id = some x) xs ids
  /-- Two additions get the same id exactly if they add the same element. -/
  same_iff : ∀ i j, i < xs.length → j < xs.length → (ids[i]? = ids[j]? ↔ xs[i]? = xs[j]?)
  /-- The ids from before the run hold what they held. -/
  keeps : ∀ id x, t.get? id = some x → last.get? id = some x
  /-- The reserved ids hold the reserved elements. -/
  reserved : [CoeffId.zero, CoeffId.one, CoeffId.two, CoeffId.minusOne, CoeffId.minusTwo].map
    last.get? = (reservedCoeffs F).map some
  /-- No element stands twice. -/
  distinct : last.toList.Nodup

theorem interns_addAll (t : CoeffTable F) (xs : List F.Elem)
    (small : (t.addAll xs).2.size ≤ wordRange) :
    t.Interns xs (t.addAll xs).1 (t.addAll xs).2 where
  holds := (t.id?_addAll xs).imp fun _ _ known => get?_of_id? small known
  same_iff i j hi hj := by
    have known := (List.forall₂_iff_get.1 (t.id?_addAll xs)).2
    have lengths := (t.id?_addAll xs).length_eq
    rw [List.getElem?_eq_getElem hi, List.getElem?_eq_getElem hj,
      List.getElem?_eq_getElem (lengths ▸ hi), List.getElem?_eq_getElem (lengths ▸ hj),
      Option.some_inj, Option.some_inj]
    exact id_eq_iff small (known i hi (lengths ▸ hi)) (known j hj (lengths ▸ hj))
  keeps id x held := by
    obtain ⟨range, -⟩ := List.getElem?_eq_some_iff.1 held
    obtain ⟨rest, longer⟩ := t.toList_prefix_addAll xs
    rw [get?, ← longer, List.getElem?_append_left range]
    exact held
  reserved := rfl
  distinct := (t.addAll xs).2.nodup

/-- A table has one id for each element. Additions answer with it and leave the other ids as they
    are. A list makes a table exactly if it starts with the reserved elements and holds no element
    twice, and otherwise the first such place is reported. The elements of a table make the same
    table again, with its index, so that it answers all further additions alike. -/
theorem interned (t : CoeffTable F) (xs l : List F.Elem)
    (small : (t.addAll xs).2.size ≤ wordRange) :
    t.Interns xs (t.addAll xs).1 (t.addAll xs).2 ∧
      ((∃ made, ofList l = .ok made) ↔ reservedCoeffs F <+: l ∧ l.Nodup) ∧
      (∀ made, ofList l = .ok made → made.toList = l) ∧
      (∀ e, ofList l = .error e → Refused l e) ∧
      ofList t.toList = .ok t :=
  ⟨t.interns_addAll xs small, exists_ofList_iff, fun _ => toList_ofList, fun _ => ofList_error,
    t.ofList_toList⟩

/-- In the field of order 47, where 54 is 7 and 45 is -2. -/
theorem interned_tiny :
    ((empty : CoeffTable tiny).addAll ([7, 8, 54, 45].map Elem.ofNat)).2.size ≤ wordRange ∧
      Interns (empty : CoeffTable tiny) ([7, 8, 54, 45].map Elem.ofNat) [5, 6, 5, 4]
        ((empty : CoeffTable tiny).addAll ([7, 8, 54, 45].map Elem.ofNat)).2 ∧
      Refused ([0, 1, 2, 46, 45, 7, 8, 54].map Elem.ofNat : List tiny.Elem) (.duplicate 7 5 7) := by
  have small : ((empty : CoeffTable tiny).addAll ([7, 8, 54, 45].map Elem.ofNat)).2.size
      ≤ wordRange := by
    decide
  obtain ⟨interns, -, -, refused, -⟩ := interned (empty : CoeffTable tiny)
    ([7, 8, 54, 45].map Elem.ofNat) ([0, 1, 2, 46, 45, 7, 8, 54].map Elem.ofNat) small
  exact ⟨small, interns, refused _ rfl⟩

end CoeffTable

end CircuitWitness
