import CircuitWitness.Proofs.Codec.Exactness
import Mathlib.Data.Finset.Card
import Mathlib.Data.List.Nodup

/-!
# Source locations and their ids

A table answers additions with ids. Functions and locations keep their places in it, since both
lists only grow, and no entry stands twice. So the id of an addition follows from what was added and
from the table, also from any later one: it is the place of the location whose function is the place
of the function.

Ids are words. As long as there are no more than 2³² different places, an id leads back to the place
that it was given for, and different places have different ids. With more places there are not
enough ids.

Results:
* `addAll_fst`: the ids of a run follow from the table at its end.
* `length_functions_le`, `length_locations_le`: a table has no more entries than there were places.
* `encode_symbols_iff`: which tables have a written form.
* `locations_interned`: one id for each place.
-/

namespace CircuitWitness

/-! ## Lists without repetitions -/

section

variable {α : Type} {l : List α} {x y : α}

theorem getElem?_of_prefix {l' : List α} {i : ℕ} (longer : l <+: l') (listed : l[i]? = some x) :
    l'[i]? = some x := by
  obtain ⟨rest, rfl⟩ := longer
  obtain ⟨range, -⟩ := List.getElem?_eq_some_iff.1 listed
  rw [List.getElem?_append_left range, listed]

variable [DecidableEq α]

/-- An entry that is there is found, and another one is appended. -/
theorem internIn_cases (l : List α) (x : α) :
    (x ∈ l ∧ internIn l x = (l.idxOf x, l)) ∨ (x ∉ l ∧ internIn l x = (l.length, l ++ [x])) := by
  unfold internIn
  split
  · next i found =>
    obtain ⟨range, rfl, -⟩ := List.idxOf?_eq_some_iff.1 found
    refine .inl ⟨List.getElem_mem range, ?_⟩
    rw [List.idxOf_eq_getD_idxOf?, found, Option.getD_some]
  · next absent => exact .inr ⟨List.idxOf?_eq_none_iff.1 absent, rfl⟩

theorem prefix_internIn (l : List α) (x : α) : l <+: (internIn l x).2 := by
  obtain ⟨-, same⟩ | ⟨-, added⟩ := internIn_cases l x
  · rw [same]
  · rw [added]
    exact List.prefix_append l [x]

theorem mem_internIn (h : y ∈ (internIn l x).2) : y ∈ l ∨ y = x := by
  obtain ⟨-, same⟩ | ⟨-, added⟩ := internIn_cases l x
  · rw [same] at h
    exact .inl h
  · simpa [added] using h

theorem mem_internIn_self (l : List α) (x : α) : x ∈ (internIn l x).2 :=
  List.mem_of_getElem? (getElem?_internIn l x)

theorem nodup_internIn (distinct : l.Nodup) (x : α) : (internIn l x).2.Nodup := by
  obtain ⟨-, same⟩ | ⟨absent, added⟩ := internIn_cases l x
  · rwa [same]
  · rw [added, ← List.concat_eq_append]
    exact distinct.concat absent

/-- The number given for an entry is its place in the list that has the entry. -/
theorem internIn_fst (l : List α) (x : α) : (internIn l x).1 = (internIn l x).2.idxOf x := by
  obtain ⟨-, same⟩ | ⟨absent, added⟩ := internIn_cases l x
  · rw [same]
  · simp only [added, List.idxOf_append_of_notMem absent, List.idxOf_cons_self, Nat.add_zero]

/-- An entry keeps its place in a list that grows. -/
theorem idxOf_of_prefix {l' : List α} (longer : l <+: l') (known : x ∈ l) :
    l'.idxOf x = l.idxOf x := by
  obtain ⟨rest, rfl⟩ := longer
  exact List.idxOf_append_of_mem known

/-- The place of an entry is found again in a list whose places are words. -/
theorem getElem?_idxOf (small : l.length ≤ wordRange) (known : x ∈ l) :
    l[(UInt32.ofNat (l.idxOf x)).toNat]? = some x := by
  have range := List.idxOf_lt_length_of_mem known
  have place : l.idxOf x % 2 ^ 32 = l.idxOf x := Nat.mod_eq_of_lt (Nat.lt_of_lt_of_le range small)
  rw [UInt32.toNat_ofNat', place, List.getElem?_eq_getElem range, List.getElem_idxOf]

/-- A list without repetitions is no longer than a list that its entries are made from. -/
theorem length_le_card {β : Type} [DecidableEq β] {origin : List β} {f : β → α}
    (distinct : l.Nodup) (each : ∀ x ∈ l, ∃ y ∈ origin, f y = x) :
    l.length ≤ origin.toFinset.card := by
  have inside : l.toFinset ⊆ origin.toFinset.image f := by
    intro x mem
    obtain ⟨y, here, rfl⟩ := each x (List.mem_toFinset.1 mem)
    exact Finset.mem_image_of_mem f (List.mem_toFinset.2 here)
  calc l.length
    _ = l.toFinset.card := (List.toFinset_card_of_nodup distinct).symm
    _ ≤ (origin.toFinset.image f).card := Finset.card_le_card inside
    _ ≤ origin.toFinset.card := Finset.card_image_le

end

/-! ## Places -/

/-- A line of a function in a file. -/
structure Place where
  function : String
  file : String
  line : UInt32
deriving DecidableEq, Repr

/-- The function that a place is in. -/
def Place.source (p : Place) : SourceFunction := ⟨p.function, p.file⟩

namespace SymbolTable

variable {t t' : SymbolTable} {p q : Place} {id : UInt32}

/-- An id leads to a line of a function, which has its name and its file in the table. -/
def Resolves (t : SymbolTable) (id : UInt32) (p : Place) : Prop :=
  ∃ l : Location, t.locations[id.toNat]? = some l ∧ l.line = p.line ∧
    t.functions[l.function.toNat]? = some ⟨p.function, p.file⟩

/-- An id leads to one place. -/
theorem Resolves.unique (hp : t.Resolves id p) (hq : t.Resolves id q) : p = q := by
  obtain ⟨l, locationAt, line, function⟩ := hp
  obtain ⟨l', locationAt', line', function'⟩ := hq
  obtain rfl := Option.some.inj (locationAt.symm.trans locationAt')
  obtain ⟨name, file⟩ := SourceFunction.mk.inj (Option.some.inj (function.symm.trans function'))
  cases p
  cases q
  simp_all

/-- A frame of a stack shows the place that its id leads to. -/
theorem Resolves.frameText (h : t.Resolves id p) :
    t.frameText id
      = "\n" ++ p.function ++ "\n\t" ++ p.file ++ ":" ++ toString p.line.toNat := by
  obtain ⟨l, locationAt, line, function⟩ := h
  simp only [SymbolTable.frameText, locationAt, function, line]

/-! ## The place of a location -/

/-- The location that a table keeps for a place in the source. -/
def locationOf (t : SymbolTable) (p : Place) : Location :=
  ⟨UInt32.ofNat (t.functions.idxOf p.source), p.line⟩

/-- The id that a table has for a place in the source. -/
def idOf (t : SymbolTable) (p : Place) : UInt32 :=
  UInt32.ofNat (t.locations.idxOf (t.locationOf p))

/-- A table that has the function and the location of a place. -/
structure Holds (t : SymbolTable) (p : Place) : Prop where
  function : p.source ∈ t.functions
  location : t.locationOf p ∈ t.locations

/-- A table that has the entries of another one, in their places. -/
structure Extends (t t' : SymbolTable) : Prop where
  functions : t.functions <+: t'.functions
  locations : t.locations <+: t'.locations

theorem Extends.refl (t : SymbolTable) : t.Extends t :=
  ⟨List.prefix_refl _, List.prefix_refl _⟩

theorem Extends.trans {t'' : SymbolTable} (h : t.Extends t') (h' : t'.Extends t'') :
    t.Extends t'' :=
  ⟨h.functions.trans h'.functions, h.locations.trans h'.locations⟩

theorem Extends.locationOf_eq (h : t.Extends t') (known : p.source ∈ t.functions) :
    t'.locationOf p = t.locationOf p := by
  rw [locationOf, locationOf, idxOf_of_prefix h.functions known]

theorem Extends.idOf_eq (h : t.Extends t') (held : t.Holds p) : t'.idOf p = t.idOf p := by
  rw [idOf, idOf, h.locationOf_eq held.function, idxOf_of_prefix h.locations held.location]

theorem Extends.holds (h : t.Extends t') (held : t.Holds p) : t'.Holds p where
  function := h.functions.subset held.function
  location := by
    rw [h.locationOf_eq held.function]
    exact h.locations.subset held.location

theorem Extends.resolves (h : t.Extends t') (resolved : t.Resolves id p) : t'.Resolves id p := by
  obtain ⟨l, locationAt, line, function⟩ := resolved
  exact ⟨l, getElem?_of_prefix h.locations locationAt, line,
    getElem?_of_prefix h.functions function⟩

/-- The id of a place leads to it, as long as ids fit into a word. -/
theorem Holds.resolves (held : t.Holds p) (functions : t.functions.length ≤ wordRange)
    (locations : t.locations.length ≤ wordRange) : t.Resolves (t.idOf p) p :=
  ⟨t.locationOf p, getElem?_idxOf locations held.location, rfl,
    getElem?_idxOf functions held.function⟩

/-! ## One addition -/

/-- The id of a place, and the table that holds it. -/
def add (t : SymbolTable) (p : Place) : UInt32 × SymbolTable :=
  t.addLocation p.function p.file p.line

theorem functions_add (t : SymbolTable) (p : Place) :
    (t.add p).2.functions = (internIn t.functions p.source).2 := rfl

theorem add_eq (t : SymbolTable) (p : Place) :
    (t.add p).1 = UInt32.ofNat (internIn t.locations ((t.add p).2.locationOf p)).1 ∧
      (t.add p).2.locations = (internIn t.locations ((t.add p).2.locationOf p)).2 := by
  rw [locationOf, functions_add, ← internIn_fst]
  exact ⟨rfl, rfl⟩

theorem extends_add (t : SymbolTable) (p : Place) : t.Extends (t.add p).2 where
  functions := prefix_internIn t.functions p.source
  locations := by
    rw [(t.add_eq p).2]
    exact prefix_internIn _ _

theorem holds_add (t : SymbolTable) (p : Place) : (t.add p).2.Holds p where
  function := mem_internIn_self t.functions p.source
  location := by
    rw [(t.add_eq p).2]
    exact mem_internIn_self _ _

/-- The id of an addition follows from the table after it. -/
theorem add_fst (t : SymbolTable) (p : Place) : (t.add p).1 = (t.add p).2.idOf p := by
  rw [(t.add_eq p).1, internIn_fst, idOf, ← (t.add_eq p).2]

theorem wellFormed_eq_true :
    t.wellFormed ↔ ∀ l ∈ t.locations, l.function.toNat < t.functions.length := by
  simp [wellFormed]

/-- A location that is added names the function that is added with it. -/
theorem wellFormed_addLocation (h : t.wellFormed) (function file : String) (line : UInt32) :
    (t.addLocation function file line).2.wellFormed := by
  rw [wellFormed_eq_true] at h ⊢
  intro l hl
  change l.function.toNat < (internIn t.functions ⟨function, file⟩).2.length
  obtain old | rfl := mem_internIn hl
  · exact Nat.lt_of_lt_of_le (h l old) (prefix_internIn t.functions _).length_le
  · have found := getElem?_internIn t.functions ⟨function, file⟩
    obtain ⟨bound, -⟩ := List.getElem?_eq_some_iff.1 found
    exact Nat.lt_of_le_of_lt (UInt32.toNat_ofNat' ▸ Nat.mod_le _ _) bound

/-- A table in which no entry stands twice and each location names a function. -/
structure Sound (t : SymbolTable) : Prop where
  functions : t.functions.Nodup
  locations : t.locations.Nodup
  known : t.wellFormed

theorem Sound.add (h : t.Sound) (p : Place) : (t.add p).2.Sound where
  functions := nodup_internIn h.functions p.source
  locations := by
    rw [(t.add_eq p).2]
    exact nodup_internIn h.locations _
  known := wellFormed_addLocation h.known _ _ _

/-! ## Runs of additions -/

/-- The ids of some places that are added one after the other, and the table that holds them. -/
def addAll (t : SymbolTable) : List Place → List UInt32 × SymbolTable
  | [] => ([], t)
  | p :: calls =>
    let (id, t₁) := t.add p
    let (ids, t₂) := t₁.addAll calls
    (id :: ids, t₂)

theorem extends_addAll (t : SymbolTable) (calls : List Place) : t.Extends (t.addAll calls).2 := by
  induction calls generalizing t with
  | nil => exact .refl t
  | cons p calls ih => exact (t.extends_add p).trans (ih (t.add p).2)

theorem holds_addAll (t : SymbolTable) (calls : List Place) :
    ∀ p ∈ calls, (t.addAll calls).2.Holds p := by
  induction calls generalizing t with
  | nil => simp
  | cons p calls ih =>
    exact List.forall_mem_cons.2 ⟨(extends_addAll _ calls).holds (t.holds_add p), ih (t.add p).2⟩

/-- The ids of a run follow from the table at its end. -/
theorem addAll_fst (t : SymbolTable) (calls : List Place) :
    (t.addAll calls).1 = calls.map (t.addAll calls).2.idOf := by
  induction calls generalizing t with
  | nil => rfl
  | cons p calls ih =>
    have first : (t.add p).1 = ((t.add p).2.addAll calls).2.idOf p := by
      rw [t.add_fst p, (extends_addAll _ calls).idOf_eq (t.holds_add p)]
    exact List.cons_eq_cons.2 ⟨first, ih (t.add p).2⟩

theorem Sound.addAll (h : t.Sound) (calls : List Place) : (t.addAll calls).2.Sound := by
  induction calls generalizing t with
  | nil => exact h
  | cons p calls ih => exact ih (h.add p)

theorem sound_empty : empty.Sound := ⟨.nil, .nil, rfl⟩

/-- The functions of a run are those of its places. -/
theorem mem_functions_addAll {f : SourceFunction} {calls : List Place}
    (h : f ∈ (t.addAll calls).2.functions) : f ∈ t.functions ∨ ∃ p ∈ calls, p.source = f := by
  induction calls generalizing t with
  | nil => exact .inl h
  | cons p calls ih =>
    obtain before | ⟨q, mem, same⟩ := ih h
    · obtain old | rfl := mem_internIn before
      · exact .inl old
      · exact .inr ⟨p, List.mem_cons_self, rfl⟩
    · exact .inr ⟨q, List.mem_cons_of_mem p mem, same⟩

/-- The locations of a run are those that the table at its end keeps for its places. -/
theorem mem_locations_addAll {l : Location} {calls : List Place}
    (h : l ∈ (t.addAll calls).2.locations) :
    l ∈ t.locations ∨ ∃ p ∈ calls, (t.addAll calls).2.locationOf p = l := by
  induction calls generalizing t with
  | nil => exact .inl h
  | cons p calls ih =>
    obtain before | ⟨q, mem, same⟩ := ih h
    · replace before : l ∈ (t.add p).2.locations := before
      rw [(t.add_eq p).2] at before
      obtain old | rfl := mem_internIn before
      · exact .inl old
      · exact .inr ⟨p, List.mem_cons_self,
          (extends_addAll _ calls).locationOf_eq (t.holds_add p).function⟩
    · exact .inr ⟨q, List.mem_cons_of_mem p mem, same⟩

/-! ## No more entries than places -/

theorem length_functions_le (calls : List Place) :
    (empty.addAll calls).2.functions.length ≤ calls.toFinset.card :=
  length_le_card (sound_empty.addAll calls).functions fun _ mem =>
    (mem_functions_addAll mem).resolve_left (by simp [empty])

theorem length_locations_le (calls : List Place) :
    (empty.addAll calls).2.locations.length ≤ calls.toFinset.card :=
  length_le_card (sound_empty.addAll calls).locations fun _ mem =>
    (mem_locations_addAll mem).resolve_left (by simp [empty])

/-! ## The written form -/

theorem fits_of_whole (whole : Piece.Whole (codec.pieces t)) : t.Fits := by
  have functions : Piece.Whole ((Codec.list SourceFunction.codec).pieces t.functions) :=
    fun piece mem => whole piece (List.mem_append_left _ mem)
  have locations : Piece.Whole ((Codec.list Location.codec).pieces t.locations) :=
    fun piece mem => whole piece (List.mem_append_right _ mem)
  refine ⟨Codec.length_lt functions, fun f hf => ?_, Codec.length_lt locations⟩
  have texts : Piece.Whole (SourceFunction.codec.pieces f) := fun piece mem =>
    functions piece (List.mem_append_right _ (List.mem_flatMap.2 ⟨f, hf, mem⟩))
  constructor
  · exact Codec.size_lt fun piece mem =>
      texts piece (List.mem_append_left _ (List.mem_append_left _ mem))
  · exact Codec.size_lt fun piece mem =>
      texts piece (List.mem_append_right _ (List.mem_append_left _ mem))

/-- A table whose locations name functions has a written form if its lengths fit into words. -/
theorem encode_symbols_iff (known : t.wellFormed) :
    (∃ written, codec.encode none t = (written, none)) ↔ t.Fits := by
  constructor
  · rintro ⟨written, wrote⟩
    exact fits_of_whole (Codec.encode_eq.1 wrote).1
  · intro fits
    exact ⟨_, Codec.encode_of_carries (carries fits known)⟩

/-- A table whose locations name functions is read back from what it was written in. -/
theorem decode_symbols (known : t.wellFormed) {written : Bytes}
    (wrote : codec.encode none t = (written, none)) (rest : Bytes) :
    codec.decode (written ++ rest) = .ok t rest := by
  have fits := (encode_symbols_iff known).1 ⟨written, wrote⟩
  obtain ⟨-, rfl⟩ := Codec.encode_eq.1 wrote
  exact (carries fits known).read rest

/-! ## One id for each place -/

/-- The answers to a run of additions, which ends with a table. -/
structure Interns (calls : List Place) (ids : List UInt32) (last : SymbolTable) : Prop where
  /-- The id of an addition leads to the place that was added, whatever is added later. -/
  resolves : ∀ later : List Place,
    List.Forall₂ (fun p id => (last.addAll later).2.Resolves id p) calls ids
  /-- Two additions get the same id exactly if they add the same place. -/
  same_iff : ∀ i j, i < calls.length → j < calls.length →
    (ids[i]? = ids[j]? ↔ calls[i]? = calls[j]?)

theorem interns_of_card_le {calls : List Place} (enough : calls.toFinset.card ≤ wordRange) :
    Interns calls (empty.addAll calls).1 (empty.addAll calls).2 := by
  have resolved : ∀ p ∈ calls,
      (empty.addAll calls).2.Resolves ((empty.addAll calls).2.idOf p) p := fun p mem =>
    (holds_addAll empty calls p mem).resolves ((length_functions_le calls).trans enough)
      ((length_locations_le calls).trans enough)
  rw [addAll_fst]
  constructor
  · intro later
    rw [List.forall₂_map_right_iff, List.forall₂_same]
    exact fun p mem => (extends_addAll _ later).resolves (resolved p mem)
  · intro i j hi hj
    rw [List.getElem?_map, List.getElem?_map, List.getElem?_eq_getElem hi,
      List.getElem?_eq_getElem hj, Option.map_some, Option.map_some, Option.some_inj,
      Option.some_inj]
    constructor
    · intro same
      exact (resolved _ (List.getElem_mem hi)).unique (same ▸ resolved _ (List.getElem_mem hj))
    · exact congrArg _

/-- Places that have an id each are no more than there are ids. -/
theorem Interns.card_le {calls : List Place}
    (h : Interns calls (empty.addAll calls).1 (empty.addAll calls).2) :
    calls.toFinset.card ≤ wordRange := by
  have resolved := h.resolves []
  rw [addAll_fst, List.forall₂_map_right_iff, List.forall₂_same] at resolved
  have card : (Finset.range wordRange).card = wordRange := Finset.card_range wordRange
  rw [← card]
  refine Finset.card_le_card_of_injOn (fun p => ((empty.addAll calls).2.idOf p).toNat)
    (fun p _ => Finset.mem_coe.2 (Finset.mem_range.2 (UInt32.toNat_lt _))) ?_
  intro p hp q hq same
  have ids := UInt32.toNat_inj.1 same
  have atP := resolved p (List.mem_toFinset.1 (Finset.mem_coe.1 hp))
  have atQ := resolved q (List.mem_toFinset.1 (Finset.mem_coe.1 hq))
  exact atP.unique (ids ▸ atQ)

/-- After any run of additions no function and no location stands twice, and each location names a
    function, so that the table is read back from what it was written in. An id leads to the place
    that was added, now and after any later additions, and two additions get the same id exactly if
    they add the same place. For that there must be an id for each place, that is, no more than 2³²
    different places, and these are enough. -/
theorem locations_interned (calls : List Place) :
    let t := (empty.addAll calls).2
    t.functions.Nodup ∧ t.locations.Nodup ∧ t.wellFormed ∧
      (∀ written rest, codec.encode none t = (written, none) →
        codec.decode (written ++ rest) = .ok t rest) ∧
      (calls.toFinset.card ≤ wordRange ↔ Interns calls (empty.addAll calls).1 t) := by
  have sound := sound_empty.addAll calls
  exact ⟨sound.functions, sound.locations, sound.known,
    fun written rest wrote => decode_symbols sound.known wrote rest,
    interns_of_card_le, Interns.card_le⟩

/-- Of four additions the third repeats the first. -/
theorem locations_interned_main :
    let calls : List Place := [⟨"main", "circuit.rs", 10⟩, ⟨"main", "circuit.rs", 12⟩,
      ⟨"main", "circuit.rs", 10⟩, ⟨"gadget", "gadget.rs", 3⟩]
    calls.toFinset.card ≤ wordRange ∧ Interns calls [0, 1, 0, 2] (empty.addAll calls).2 ∧
      ∃ written, codec.encode none (empty.addAll calls).2 = (written, none) ∧
        codec.decode (written ++ [9]) = .ok (empty.addAll calls).2 [9] := by
  intro calls
  have ids : (empty.addAll calls).1 = [0, 1, 0, 2] := by decide
  have enough : calls.toFinset.card ≤ wordRange := (List.toFinset_card_le calls).trans (by decide)
  obtain ⟨-, -, known, decoded, interns⟩ := locations_interned calls
  obtain ⟨written, wrote⟩ := (encode_symbols_iff known).2 (by decide)
  exact ⟨enough, ids ▸ interns.1 enough, written, wrote, decoded written [9] wrote⟩

end SymbolTable

end CircuitWitness
