import CircuitWitness.Solver.Partition
import Mathlib.Tactic.Ring

/-!
# The ranges of a level

The ranges into which a level is split stand one after the other and leave nothing out, so running
them in turn is running the level. What an even share for each task leaves over goes to the first
ranges, one instruction to each.

Results:
* `flatten_slices`: the ranges of a list, put together, are the list.
* `map_rangeSize_ranges`: the sizes of the ranges.
* `half_minWork_le`: a level that is worth splitting leaves each task half of `minWork`.
* `partition_evenSplit`: what the ranges of a level are.
-/

namespace CircuitWitness

variable {α : Type}

/-! ## Ranges in a row -/

/-- The number of places in a range. -/
def rangeSize (range : ℕ × ℕ) : ℕ := range.2 - range.1

/-- The places in a range. -/
def rangePlaces (range : ℕ × ℕ) : List ℕ := List.range' range.1 (rangeSize range)

/-- Ranges from `start` to `stop`, each of which begins where the one before it ends. -/
inductive Adjoining : ℕ → ℕ → List (ℕ × ℕ) → Prop where
  | nil {start : ℕ} : Adjoining start start []
  | cons {start next stop : ℕ} {rest : List (ℕ × ℕ)} (le : start ≤ next)
    (others : Adjoining next stop rest) : Adjoining start stop ((start, next) :: rest)

theorem Adjoining.le {start stop : ℕ} {rs : List (ℕ × ℕ)} (h : Adjoining start stop rs) :
    start ≤ stop := by
  induction h with
  | nil => exact le_rfl
  | cons le _ ih => exact le.trans ih

/-- Adjoining ranges hold each place between their ends once, in order. -/
theorem Adjoining.flatMap_rangePlaces {start stop : ℕ} {rs : List (ℕ × ℕ)}
    (h : Adjoining start stop rs) :
    rs.flatMap rangePlaces = List.range' start (stop - start) := by
  induction h with
  | nil => simp
  | @cons start next stop rest le others ih =>
    have le' := others.le
    rw [List.flatMap_cons, ih, rangePlaces, rangeSize]
    rw [show stop - start = (next - start) + (stop - next) by omega, ← List.range'_append_1]
    rw [show start + (next - start) = next by omega]

theorem slice_append (l : List α) {a b e : ℕ} (hab : a ≤ b) (hbe : b ≤ e) :
    slice l (a, b) ++ (l.take e).drop b = (l.take e).drop a := by
  have split : e - a = (b - a) + (e - b) := by omega
  have drop : l.drop b = (l.drop a).drop (b - a) := by
    rw [List.drop_drop]
    congr 1
    omega
  simp only [slice, List.drop_take]
  rw [split, List.take_add, drop]

theorem Adjoining.flatten_slices {start stop : ℕ} {rs : List (ℕ × ℕ)}
    (h : Adjoining start stop rs) (l : List α) :
    (rs.map (slice l)).flatten = (l.take stop).drop start := by
  induction h with
  | @nil start =>
    have none_left := List.drop_eq_nil_of_le (List.length_take_le start l)
    rw [none_left]
    rfl
  | cons le others ih =>
    rw [List.map_cons, List.flatten_cons, ih]
    exact slice_append l le others.le

/-! ## Ranges of two sizes -/

theorem adjoining_ranges (base start : ℕ) {extra n : ℕ} (h : extra ≤ n) :
    Adjoining start (start + n * base + extra) (ranges base extra start n) := by
  induction n generalizing extra start with
  | zero =>
    obtain rfl : extra = 0 := by omega
    simpa [ranges] using Adjoining.nil
  | succ n ih =>
    cases extra with
    | zero =>
      rw [ranges, show start + (n + 1) * base + 0 = start + base + n * base + 0 by ring]
      exact .cons (by omega) (ih _ (Nat.zero_le n))
    | succ extra =>
      rw [ranges]
      rw [show start + (n + 1) * base + (extra + 1) = start + base + 1 + n * base + extra by ring]
      exact .cons (by omega) (ih _ (by omega))

/-- The larger ranges come first. -/
theorem map_rangeSize_ranges {base extra start n : ℕ} (h : extra ≤ n) :
    (ranges base extra start n).map rangeSize
      = List.replicate extra (base + 1) ++ List.replicate (n - extra) base := by
  induction n generalizing extra start with
  | zero =>
    obtain rfl : extra = 0 := by omega
    rfl
  | succ n ih =>
    cases extra with
    | zero =>
      rw [ranges, List.map_cons, ih (Nat.zero_le n)]
      simp [rangeSize, List.replicate_succ]
    | succ extra =>
      rw [ranges, List.map_cons, ih (by omega), List.replicate_succ, Nat.add_sub_add_right]
      simp [rangeSize, Nat.add_assoc]

theorem le_rangeSize_of_mem_ranges {base extra start n : ℕ} (h : extra ≤ n) {r : ℕ × ℕ}
    (mem : r ∈ ranges base extra start n) : base ≤ rangeSize r := by
  have size := List.mem_map_of_mem (f := rangeSize) mem
  rw [map_rangeSize_ranges h, List.mem_append] at size
  obtain larger | same := size
  · rw [List.eq_of_mem_replicate larger]
    exact Nat.le_succ base
  · rw [List.eq_of_mem_replicate same]

/-- No range is longer than one before it, and none is shorter by more than one. -/
def Balanced (rs : List (ℕ × ℕ)) : Prop :=
  rs.Pairwise fun r r' => rangeSize r' ≤ rangeSize r ∧ rangeSize r ≤ rangeSize r' + 1

theorem balanced_ranges {base extra start n : ℕ} (h : extra ≤ n) :
    Balanced (ranges base extra start n) := by
  rw [Balanced, ← List.pairwise_map (f := rangeSize) (R := fun m n => n ≤ m ∧ m ≤ n + 1),
    map_rangeSize_ranges h, List.pairwise_append]
  refine ⟨List.pairwise_replicate.2 (by simp), List.pairwise_replicate.2 (by simp), ?_⟩
  intro m hm n hn
  rw [List.eq_of_mem_replicate hm, List.eq_of_mem_replicate hn]
  omega

/-! ## The number of tasks -/

theorem taskCount_pos (length workers minWork : ℕ) : 0 < taskCount length workers minWork := by
  simp only [taskCount]
  omega

theorem mod_taskCount_le (length workers minWork : ℕ) :
    length % taskCount length workers minWork ≤ taskCount length workers minWork :=
  (Nat.mod_lt _ (taskCount_pos length workers minWork)).le

theorem taskCount_le_workers {length workers minWork : ℕ} (h : 0 < workers) :
    taskCount length workers minWork ≤ workers := by
  simp only [taskCount]
  omega

theorem taskCount_le_length {length : ℕ} (workers minWork : ℕ) (h : 0 < length) :
    taskCount length workers minWork ≤ length := by
  have positive : 0 < max minWork 1 := by omega
  have ceil : (length + max minWork 1 - 1) / max minWork 1 < length + 1 := by
    have grows := Nat.le_mul_of_pos_right length positive
    rw [Nat.div_lt_iff_lt_mul positive, Nat.succ_mul]
    omega
  simp only [taskCount]
  omega

/-- If each task but one had `minWork` instructions, at least one instruction would be left. -/
theorem taskCount_mul_le {length : ℕ} (workers minWork : ℕ) (h : 0 < length) :
    taskCount length workers minWork * max minWork 1 ≤ length + max minWork 1 - 1 := by
  have positive : 0 < max minWork 1 := by omega
  have one : 1 * max minWork 1 ≤ length + max minWork 1 - 1 := by omega
  rw [← Nat.le_div_iff_mul_le positive] at one ⊢
  simp only [taskCount]
  omega

/-- The worst case is one instruction too many for a single task. -/
theorem half_minWork_le {length workers minWork : ℕ} (h : minWork < length) :
    (minWork + 1) / 2 ≤ length / taskCount length workers minWork := by
  have positive := taskCount_pos length workers minWork
  have left := taskCount_mul_le workers minWork (Nat.zero_lt_of_lt h)
  rw [Nat.le_div_iff_mul_le positive]
  generalize taskCount length workers minWork = n at left positive
  obtain ⟨m, least⟩ : ∃ m, max minWork 1 = m + 1 := ⟨max minWork 1 - 1, by omega⟩
  rw [least] at left
  obtain rfl | ⟨k, rfl⟩ : n = 1 ∨ ∃ k, n = k + 2 := by
    obtain one | more := Nat.eq_or_lt_of_le positive
    · exact .inl one.symm
    · exact .inr (Nat.exists_eq_add_of_le' more)
  · omega
  · -- Twice the product is at most `(m + 2) * (k + 2)`, twice the length at least
    -- `2 * ((k + 1) * (m + 1) + 1)`, and the difference is `k * m`.
    have twice : 2 * ((minWork + 1) / 2) * (k + 2) ≤ (m + 2) * (k + 2) :=
      Nat.mul_le_mul_right _ (by omega)
    have expanded : (m + 2) * (k + 2) = k * m + 2 * k + 2 * m + 4 := by ring
    have expanded' : (k + 2) * (m + 1) = k * m + k + 2 * m + 2 := by ring
    rw [Nat.mul_assoc] at twice
    omega

/-! ## The ranges of a level -/

theorem adjoining_partition (length workers minWork : ℕ) :
    Adjoining 0 length (partition length workers minWork) := by
  have all := adjoining_ranges (length / taskCount length workers minWork) 0
    (mod_taskCount_le length workers minWork)
  rwa [Nat.zero_add, Nat.mul_comm, Nat.div_add_mod'] at all

theorem flatten_slices (l : List α) (workers minWork : ℕ) :
    ((partition l.length workers minWork).map (slice l)).flatten = l := by
  rw [(adjoining_partition l.length workers minWork).flatten_slices, List.take_length,
    List.drop_zero]

/-- Ranges into which a level of a given length is split for some workers. -/
structure EvenSplit (length workers minWork : ℕ) (rs : List (ℕ × ℕ)) : Prop where
  count : rs.length ≤ workers
  adjoining : Adjoining 0 length rs
  inhabited : ∀ r ∈ rs, r.1 < r.2
  /-- Put together, they are the level. -/
  covers : rs.flatMap rangePlaces = List.range length
  balanced : Balanced rs
  /-- If there is work for more than one task, each has half of `minWork`, rounded up. -/
  substantial : minWork < length → ∀ r ∈ rs, (minWork + 1) / 2 ≤ rangeSize r

/-- A level that is not empty is split into at most as many ranges as there are workers. They
    follow each other, none of them is empty, and put together they are the level. Their sizes
    differ by one at most, the larger ones come first, and if the level has more than `minWork`
    instructions each range has at least half as many. -/
theorem partition_evenSplit {length workers minWork : ℕ} (inhabited : 0 < length)
    (working : 0 < workers) :
    EvenSplit length workers minWork (partition length workers minWork) := by
  have positive := taskCount_pos length workers minWork
  have extra := mod_taskCount_le length workers minWork
  have adjoining := adjoining_partition length workers minWork
  have size (r : ℕ × ℕ) (mem : r ∈ partition length workers minWork) :
      length / taskCount length workers minWork ≤ rangeSize r :=
    le_rangeSize_of_mem_ranges extra mem
  refine ⟨?_, adjoining, fun r mem => ?_, ?_, balanced_ranges extra, fun more r mem => ?_⟩
  · rw [partition, length_ranges]
    exact taskCount_le_workers working
  · have share := Nat.div_pos (taskCount_le_length workers minWork inhabited) positive
    exact Nat.lt_of_sub_pos (share.trans_le (size r mem))
  · rw [adjoining.flatMap_rangePlaces, Nat.sub_zero, List.range_eq_range']
  · exact (half_minWork_le more).trans (size r mem)

/-- With one instruction more than a task is to have, two tasks share them. -/
theorem partition_halves :
    0 < 51 ∧ 0 < 4 ∧ partition 51 4 50 = [(0, 26), (26, 51)] ∧
      EvenSplit 51 4 50 (partition 51 4 50) :=
  ⟨by decide, by decide, rfl, partition_evenSplit (by decide) (by decide)⟩

end CircuitWitness
