import CircuitWitness.Circuit.Levels
import CircuitWitness.Proofs.Blueprint.Encoding
import Mathlib.Data.List.Nodup
import Mathlib.Data.Set.List

/-!
# Schedules

A schedule lists the instructions level by level. An instruction that is placed goes to the end of
its level. A schedule that is given is entered into a table, which has a place for each instruction;
it is accepted if each instruction stands in it once, and then the table tells its level.

Results:
* `getElem?_place_self`, `getElem?_place_of_ne`: placing changes one level.
* `enterLevels_ok`: what a table says into which a schedule was entered.
* `exists_enterLevels`: a schedule without repetitions can be entered.
* `instructionLevels_ok`, `exists_instructionLevels`, `Accepted.unique`: which schedules are
  accepted, and that they leave no choice for the levels.
* `Accepted.place`: a schedule stays accepted when the next instruction is placed.
* `Accepted.arranges`, `Arranges.accepted`: accepted are the schedules that list every instruction
  once.
-/

namespace CircuitWitness.Levels

/-! ## Placing -/

theorem length_place (index : UInt32) (level : ℕ) (schedule : List (List UInt32)) :
    (place index level schedule).length = max schedule.length (level + 1) := by
  induction level generalizing schedule with
  | zero =>
    cases schedule with
    | nil => rfl
    | cons l rest =>
      simp only [place, List.length_cons]
      omega
  | succ level ih =>
    cases schedule with
    | nil =>
      simp only [place, List.length_cons, List.length_nil, ih]
      omega
    | cons l rest =>
      simp only [place, List.length_cons, ih]
      omega

theorem getElem?_place_self (index : UInt32) (level : ℕ) (schedule : List (List UInt32)) :
    (place index level schedule)[level]? = some (schedule[level]?.getD [] ++ [index]) := by
  induction level generalizing schedule with
  | zero => cases schedule <;> rfl
  | succ level ih =>
    cases schedule with
    | nil => simpa [place] using ih []
    | cons l rest => simpa [place] using ih rest

theorem getElem?_place_of_ne {level l : ℕ} (other : l ≠ level) (index : UInt32)
    {schedule : List (List UInt32)} {indices : List UInt32}
    (h : (place index level schedule)[l]? = some indices) : indices = schedule[l]?.getD [] := by
  induction level generalizing schedule l with
  | zero =>
    obtain ⟨k, rfl⟩ := Nat.exists_eq_succ_of_ne_zero other
    cases schedule with
    | nil => simp [place] at h
    | cons l rest =>
      simp only [place, List.getElem?_cons_succ] at h ⊢
      rw [h, Option.getD_some]
  | succ level ih =>
    cases l with
    | zero => cases schedule <;> simpa [place] using h.symm
    | succ k =>
      have below : k ≠ level := by omega
      cases schedule with
      | nil =>
        have rest : indices = ([] : List (List UInt32))[k]?.getD [] :=
          ih below (by simpa [place] using h)
        simpa using rest
      | cons l rest =>
        have rest : indices = rest[k]?.getD [] := ih below (by simpa [place] using h)
        simpa using rest

theorem mem_place {index x : UInt32} {level : ℕ} {schedule : List (List UInt32)} :
    x ∈ (place index level schedule).flatten ↔ x = index ∨ x ∈ schedule.flatten := by
  induction level generalizing schedule with
  | zero =>
    cases schedule with
    | nil => simp [place]
    | cons l rest => simp [place, or_left_comm]
  | succ level ih =>
    cases schedule with
    | nil => simp [place, ih]
    | cons l rest => simp [place, ih, or_left_comm]

/-- Up to their order, the new instruction is one more. -/
theorem perm_place (index : UInt32) (level : ℕ) (schedule : List (List UInt32)) :
    (place index level schedule).flatten.Perm (index :: schedule.flatten) := by
  induction level generalizing schedule with
  | zero =>
    cases schedule with
    | nil => exact .refl _
    | cons l rest =>
      simp only [place, List.flatten_cons, List.append_assoc, List.singleton_append]
      exact List.perm_middle
  | succ level ih =>
    cases schedule with
    | nil => exact ih []
    | cons l rest =>
      simp only [place, List.flatten_cons]
      exact ((ih rest).append_left l).trans List.perm_middle

/-! ## Tables -/

/-- A table into which the instructions of one level were entered. -/
structure Filled (level : ℕ) (indices : List UInt32) (table table' : List (Option ℕ)) : Prop where
  length : table'.length = table.length
  nodup : indices.Nodup
  empty : ∀ index ∈ indices, table[index.toNat]? = some none
  filled : ∀ index ∈ indices, table'[index.toNat]? = some (some level)
  others : ∀ p, (∀ index ∈ indices, index.toNat ≠ p) → table'[p]? = table[p]?

/-- A table into which levels were entered, the first of them with the given number. -/
structure Entered (level : ℕ) (schedule : List (List UInt32)) (table table' : List (Option ℕ)) :
    Prop where
  length : table'.length = table.length
  nodup : schedule.flatten.Nodup
  empty : ∀ index ∈ schedule.flatten, table[index.toNat]? = some none
  filled : ∀ (k : ℕ) (indices : List UInt32), schedule[k]? = some indices → ∀ index ∈ indices,
    table'[index.toNat]? = some (some (level + k))
  others : ∀ p, (∀ index ∈ schedule.flatten, index.toNat ≠ p) → table'[p]? = table[p]?

variable {level : ℕ} {index : UInt32} {indices : List UInt32} {schedule : List (List UInt32)}
  {table table₁ table' : List (Option ℕ)}

theorem Filled.other (h : Filled level indices table table') (absent : index ∉ indices) :
    table'[index.toNat]? = table[index.toNat]? :=
  h.others _ fun _ hx => toNat_ne_of_notMem hx absent

theorem Entered.other (h : Entered level schedule table table')
    (absent : index ∉ schedule.flatten) : table'[index.toNat]? = table[index.toNat]? :=
  h.others _ fun _ hx => toNat_ne_of_notMem hx absent

theorem Filled.nil (level : ℕ) (table : List (Option ℕ)) : Filled level [] table table :=
  ⟨rfl, .nil, by simp, by simp, fun _ _ => rfl⟩

/-- Entering one instruction more before the others. -/
theorem Filled.cons (empty : table[index.toNat]? = some none)
    (h : Filled level indices (table.set index.toNat (some level)) table') :
    Filled level (index :: indices) table table' := by
  obtain ⟨bound, -⟩ := List.getElem?_eq_some_iff.1 empty
  have here : (table.set index.toNat (some level))[index.toNat]? = some (some level) :=
    List.getElem?_set_self bound
  have absent : index ∉ indices := by
    intro mem
    rw [h.empty index mem] at here
    cases here
  refine ⟨h.length.trans List.length_set, List.nodup_cons.2 ⟨absent, h.nodup⟩, fun x mem => ?_,
    fun x mem => ?_, fun p away => ?_⟩
  · obtain rfl | mem := List.mem_cons.1 mem
    · exact empty
    · rw [← h.empty x mem, List.getElem?_set_ne (toNat_ne_of_notMem mem absent).symm]
  · obtain rfl | mem := List.mem_cons.1 mem
    · rw [h.other absent, here]
    · exact h.filled x mem
  · rw [h.others p fun x hx => away x (List.mem_cons_of_mem index hx),
      List.getElem?_set_ne (away index List.mem_cons_self)]

theorem Entered.nil (level : ℕ) (table : List (Option ℕ)) : Entered level [] table table :=
  ⟨rfl, .nil, by simp, by simp, fun _ _ => rfl⟩

/-- Entering one level more before the others. -/
theorem Entered.cons (h : Filled level indices table table₁)
    (h' : Entered (level + 1) schedule table₁ table') :
    Entered level (indices :: schedule) table table' := by
  -- What the first level fills is not empty for the others.
  have apart : ∀ index ∈ indices, index ∉ schedule.flatten := by
    intro index mem later
    have filled := h.filled index mem
    rw [h'.empty index later] at filled
    cases filled
  refine ⟨h'.length.trans h.length, ?_, fun index mem => ?_, fun k indices' listed index mem => ?_,
    fun p absent => ?_⟩
  · rw [List.flatten_cons, List.nodup_append]
    refine ⟨h.nodup, h'.nodup, fun x hx y hy same => ?_⟩
    subst same
    exact apart x hx hy
  · rw [List.flatten_cons] at mem
    obtain mem | mem := List.mem_append.1 mem
    · exact h.empty index mem
    · rw [← h.other fun earlier => apart index earlier mem]
      exact h'.empty index mem
  · cases k with
    | zero =>
      obtain rfl := Option.some.inj listed
      rw [h'.other (apart index mem)]
      exact h.filled index mem
    | succ k =>
      rw [h'.filled k indices' listed index mem]
      congr 2
      omega
  · rw [List.flatten_cons] at absent
    rw [h'.others p fun x hx => absent x (List.mem_append_right _ hx),
      h.others p fun x hx => absent x (List.mem_append_left _ hx)]

theorem enterLevel_ok (h : enterLevel level table indices = .ok table') :
    Filled level indices table table' := by
  induction indices generalizing table with
  | nil =>
    obtain rfl := Except.ok.inj h
    exact .nil level table
  | cons index indices ih =>
    simp only [enterLevel, List.foldlM_cons] at h
    obtain ⟨table₁, first, rest⟩ := except_bind_ok.1 h
    split at first
    · cases first
    · cases first
    · next empty =>
      obtain rfl := Except.ok.inj first
      exact .cons empty (ih rest)

/-- What a table says into which a schedule was entered. -/
theorem enterLevels_ok (h : enterLevels level table schedule = .ok table') :
    Entered level schedule table table' := by
  induction schedule generalizing level table with
  | nil =>
    obtain rfl := Except.ok.inj h
    exact .nil level table
  | cons indices schedule ih =>
    obtain ⟨table₁, first, rest⟩ := except_bind_ok.1 h
    exact .cons (enterLevel_ok first) (ih rest)

theorem exists_enterLevel (level : ℕ) (nodup : indices.Nodup)
    (empty : ∀ index ∈ indices, table[index.toNat]? = some none) :
    ∃ table', enterLevel level table indices = .ok table' := by
  induction indices generalizing table with
  | nil => exact ⟨table, rfl⟩
  | cons index indices ih =>
    obtain ⟨absent, nodup⟩ := List.nodup_cons.1 nodup
    have others : ∀ x ∈ indices, (table.set index.toNat (some level))[x.toNat]? = some none := by
      intro x mem
      rw [List.getElem?_set_ne (toNat_ne_of_notMem mem absent).symm]
      exact empty x (List.mem_cons_of_mem index mem)
    obtain ⟨table', rest⟩ := ih nodup others
    refine ⟨table', ?_⟩
    simp only [enterLevel, List.foldlM_cons, empty index List.mem_cons_self]
    exact rest

/-- A schedule without repetitions can be entered into empty places. -/
theorem exists_enterLevels (level : ℕ) (nodup : schedule.flatten.Nodup)
    (empty : ∀ index ∈ schedule.flatten, table[index.toNat]? = some none) :
    ∃ table', enterLevels level table schedule = .ok table' := by
  induction schedule generalizing level table with
  | nil => exact ⟨table, rfl⟩
  | cons indices schedule ih =>
    rw [List.flatten_cons] at nodup empty
    obtain ⟨first, others, apart⟩ := List.nodup_append.1 nodup
    obtain ⟨table₁, entered⟩ := exists_enterLevel level first fun x mem =>
      empty x (List.mem_append_left _ mem)
    have empty₁ : ∀ x ∈ schedule.flatten, table₁[x.toNat]? = some none := by
      intro x mem
      rw [(enterLevel_ok entered).other fun earlier => apart x earlier x mem rfl]
      exact empty x (List.mem_append_right _ mem)
    obtain ⟨table', rest⟩ := ih (level + 1) others empty₁
    refine ⟨table', ?_⟩
    rw [enterLevels, entered]
    exact rest

theorem completeTable_ok {index : ℕ} {table : List (Option ℕ)} {levels : List ℕ}
    (h : completeTable index table = .ok levels) : table = levels.map some := by
  induction table generalizing index levels with
  | nil =>
    obtain rfl := Except.ok.inj h
    rfl
  | cons x table ih =>
    cases x with
    | none => cases h
    | some level =>
      obtain ⟨others, rest, last⟩ := except_bind_ok.1 h
      obtain rfl := Except.ok.inj last
      rw [ih rest, List.map_cons]

theorem completeTable_map_some (index : ℕ) (levels : List ℕ) :
    completeTable index (levels.map some) = .ok levels := by
  induction levels generalizing index with
  | nil => rfl
  | cons level levels ih =>
    rw [List.map_cons, completeTable, ih]
    rfl

/-! ## Accepted schedules -/

/-- A schedule in which each of `count` instructions stands once, with their levels. -/
structure Accepted (schedule : List (List UInt32)) (count : ℕ) (levels : List ℕ) : Prop where
  length : levels.length = count
  small : count ≤ wordRange
  nodup : schedule.flatten.Nodup
  mem : ∀ index, index ∈ schedule.flatten ↔ index.toNat < count
  level : ∀ (k : ℕ) (indices : List UInt32), schedule[k]? = some indices → ∀ index ∈ indices,
    levels[index.toNat]? = some k

/-- Levels that are accepted hold every instruction once. -/
theorem instructionLevels_ok {schedule : List (List UInt32)} {count : ℕ} {levels : List ℕ}
    (h : instructionLevels schedule count = .ok levels) : Accepted schedule count levels := by
  obtain ⟨table, entered, complete⟩ := except_bind_ok.1 h
  obtain rfl := completeTable_ok complete
  have entered := enterLevels_ok entered
  have length : levels.length = count := by simpa using entered.length
  have placed (p : ℕ) (hp : p < count) : ∃ index ∈ schedule.flatten, index.toNat = p := by
    by_contra absent
    have same := entered.others p fun index mem number => absent ⟨index, mem, number⟩
    rw [List.getElem?_map, List.getElem?_eq_getElem (by omega), List.getElem?_replicate_of_lt hp]
      at same
    cases same
  refine ⟨length, ?_, entered.nodup, fun index => ⟨fun mem => ?_, fun lt => ?_⟩,
    fun k indices listed index mem => ?_⟩
  · by_contra above
    obtain ⟨index, -, number⟩ := placed wordRange (by omega)
    have := index.toNat_lt
    unfold wordRange at number
    omega
  · have empty := entered.empty index mem
    by_contra above
    rw [List.getElem?_replicate, if_neg above] at empty
    cases empty
  · obtain ⟨index', mem, number⟩ := placed index.toNat lt
    rwa [← UInt32.toNat_inj.1 number]
  · have filled := entered.filled k indices listed index mem
    rw [List.getElem?_map, Nat.zero_add] at filled
    simpa using filled

/-- A schedule that holds every instruction once gives them levels. -/
theorem exists_instructionLevels {count : ℕ} (small : count ≤ wordRange)
    (nodup : schedule.flatten.Nodup)
    (mem : ∀ index, index ∈ schedule.flatten ↔ index.toNat < count) :
    ∃ levels, instructionLevels schedule count = .ok levels := by
  have empty : ∀ index ∈ schedule.flatten,
      (List.replicate count (none : Option ℕ))[index.toNat]? = some none :=
    fun index listed => List.getElem?_replicate_of_lt ((mem index).1 listed)
  obtain ⟨table, entered⟩ := exists_enterLevels 0 nodup empty
  have told := enterLevels_ok entered
  have complete : table ∈ Set.range (List.map some) := by
    rw [Set.range_list_map]
    intro x entry
    obtain ⟨p, bound, rfl⟩ := List.getElem_of_mem entry
    rw [told.length, List.length_replicate] at bound
    have word : (UInt32.ofNat p).toNat = p := toNat_word (Nat.lt_of_lt_of_le bound small)
    obtain ⟨indices, here, listed⟩ := List.mem_flatten.1 ((mem (.ofNat p)).2 (by rwa [word]))
    obtain ⟨k, inside, rfl⟩ := List.getElem_of_mem here
    have filled := told.filled k _ (List.getElem?_eq_getElem inside) _ listed
    rw [word] at filled
    exact ⟨0 + k, (List.getElem?_eq_some_iff.1 filled).2.symm⟩
  obtain ⟨levels, rfl⟩ := complete
  refine ⟨levels, ?_⟩
  rw [instructionLevels, entered]
  exact completeTable_map_some 0 levels

/-- A schedule leaves no choice for the levels. -/
theorem Accepted.unique {count : ℕ} {levels levels' : List ℕ}
    (h : Accepted schedule count levels) (h' : Accepted schedule count levels') :
    levels = levels' := by
  refine List.ext_getElem? fun p => ?_
  by_cases hp : p < count
  · have word : (UInt32.ofNat p).toNat = p := toNat_word (Nat.lt_of_lt_of_le hp h.small)
    obtain ⟨indices, here, mem⟩ := List.mem_flatten.1 ((h.mem (.ofNat p)).2 (by rwa [word]))
    obtain ⟨k, bound, rfl⟩ := List.getElem_of_mem here
    have level := h.level k _ (List.getElem?_eq_getElem bound) _ mem
    have level' := h'.level k _ (List.getElem?_eq_getElem bound) _ mem
    rw [word] at level level'
    rw [level, level']
  · rw [List.getElem?_eq_none (by rw [h.length]; omega),
      List.getElem?_eq_none (by rw [h'.length]; omega)]

/-- Schedules that hold every instruction once are accepted. -/
theorem Accepted.instructionLevels_eq {count : ℕ} {levels : List ℕ}
    (h : Accepted schedule count levels) : instructionLevels schedule count = .ok levels := by
  obtain ⟨levels', given⟩ := exists_instructionLevels h.small h.nodup h.mem
  rw [given, (instructionLevels_ok given).unique h]

/-- A schedule in which the next instruction is placed is accepted. -/
theorem Accepted.place {schedule : List (List UInt32)} {count : ℕ} {levels : List ℕ}
    (h : Accepted schedule count levels) (room : count < wordRange) (level : ℕ) :
    Accepted (Levels.place (UInt32.ofNat count) level schedule) (count + 1)
      (levels ++ [level]) := by
  have word : (UInt32.ofNat count).toNat = count := toNat_word room
  have absent : UInt32.ofNat count ∉ schedule.flatten := by
    rw [h.mem, word]
    omega
  have old (k : ℕ) (index : UInt32) (mem : index ∈ schedule[k]?.getD []) :
      (levels ++ [level])[index.toNat]? = some k := by
    cases listed : schedule[k]? with
    | none =>
      rw [listed] at mem
      exact absurd mem List.not_mem_nil
    | some indices =>
      rw [listed, Option.getD_some] at mem
      have told := h.level k indices listed index mem
      rw [List.getElem?_append_left (List.getElem?_eq_some_iff.1 told).1, told]
  refine ⟨by rw [List.length_append, h.length, List.length_singleton], room, ?_, fun index => ?_,
    fun k indices listed index mem => ?_⟩
  · exact (perm_place _ level schedule).nodup_iff.2 (List.nodup_cons.2 ⟨absent, h.nodup⟩)
  · rw [mem_place, h.mem, ← UInt32.toNat_inj, word]
    omega
  · by_cases same : k = level
    · subst same
      rw [getElem?_place_self] at listed
      obtain rfl := Option.some.inj listed
      obtain mem | mem := List.mem_append.1 mem
      · exact old k index mem
      · rw [List.mem_singleton.1 mem, word, ← h.length, List.getElem?_concat_length]
    · rw [getElem?_place_of_ne same _ listed] at mem
      exact old k index mem

theorem Accepted.mem_of_lt {schedule : List (List UInt32)} {count : ℕ} {levels : List ℕ}
    (h : Accepted schedule count levels) {p : ℕ} (hp : p < count) :
    UInt32.ofNat p ∈ schedule.flatten := by
  rw [h.mem, toNat_word (Nat.lt_of_lt_of_le hp h.small)]
  exact hp

/-! ## Arrangements -/

/-- A schedule that lists each of `n` instructions once, and nothing else. -/
def Arranges (schedule : List (List UInt32)) (n : ℕ) : Prop :=
  (schedule.flatten.map UInt32.toNat).Perm (List.range n)

instance (schedule : List (List UInt32)) (n : ℕ) : Decidable (Arranges schedule n) :=
  inferInstanceAs (Decidable (List.Perm _ _))

variable {schedule : List (List UInt32)} {n : ℕ}

theorem Arranges.mem_map (h : Arranges schedule n) (p : ℕ) :
    p ∈ schedule.flatten.map UInt32.toNat ↔ p < n :=
  h.mem_iff.trans List.mem_range

theorem Arranges.mem_flatten (h : Arranges schedule n) (index : UInt32) :
    index ∈ schedule.flatten ↔ index.toNat < n := by
  rw [← h.mem_map, List.mem_map_of_injective fun _ _ => UInt32.toNat_inj.1]

theorem Arranges.nodup (h : Arranges schedule n) : schedule.flatten.Nodup :=
  .of_map UInt32.toNat (h.nodup_iff.2 List.nodup_range)

/-- There are no more instructions than words. -/
theorem Arranges.le_wordRange (h : Arranges schedule n) : n ≤ wordRange := by
  by_contra above
  obtain ⟨index, -, number⟩ := List.mem_map.1 ((h.mem_map wordRange).2 (Nat.not_le.1 above))
  have := index.toNat_lt
  unfold wordRange at number
  omega

theorem arranges_of_nodup (small : n ≤ wordRange) (nodup : schedule.flatten.Nodup)
    (mem : ∀ index, index ∈ schedule.flatten ↔ index.toNat < n) : Arranges schedule n := by
  have once : (schedule.flatten.map UInt32.toNat).Nodup :=
    nodup.map fun _ _ => UInt32.toNat_inj.1
  refine (List.perm_ext_iff_of_nodup once List.nodup_range).2 fun p => ?_
  rw [List.mem_map, List.mem_range]
  constructor
  · rintro ⟨index, listed, rfl⟩
    exact (mem index).1 listed
  · intro lt
    have word : (UInt32.ofNat p).toNat = p := toNat_word (Nat.lt_of_lt_of_le lt small)
    exact ⟨UInt32.ofNat p, (mem _).2 (by rwa [word]), word⟩

theorem Accepted.arranges {levels : List ℕ} (h : Accepted schedule n levels) :
    Arranges schedule n :=
  arranges_of_nodup h.small h.nodup h.mem

/-- A schedule that lists every instruction once is accepted. -/
theorem Arranges.accepted (h : Arranges schedule n) : ∃ levels, Accepted schedule n levels := by
  obtain ⟨levels, given⟩ := exists_instructionLevels h.le_wordRange h.nodup h.mem_flatten
  exact ⟨levels, instructionLevels_ok given⟩

end CircuitWitness.Levels
