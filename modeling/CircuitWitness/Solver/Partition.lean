/-!
# Splitting a level

A level is split into ranges of neighbouring instructions, one for each task. Sizes differ by at
most one, and the larger ranges come first.

Results:
* `length_ranges`: there are as many ranges as tasks.
* `length_slice`: a range of a list holds as many entries as it is long.
-/

namespace CircuitWitness

/-- The number of tasks for `length` instructions: one for each `minWork` of them, but no more than
    there are workers (the `nb_tasks` of `partition`). -/
def taskCount (length workers minWork : Nat) : Nat :=
  let least := max minWork 1
  max 1 (min workers ((length + least - 1) / least))

/-- `n` ranges from `start` on of size `base`, of which the first `extra` are larger by one (the
    loop of `partition`). -/
def ranges (base : Nat) : (extra start n : Nat) → List (Nat × Nat)
  | _, _, 0 => []
  | 0, start, n + 1 => (start, start + base) :: ranges base 0 (start + base) n
  | extra + 1, start, n + 1 =>
    (start, start + base + 1) :: ranges base extra (start + base + 1) n

/-- The ranges, end excluded, into which `length` instructions are split (`partition`). -/
def partition (length workers minWork : Nat) : List (Nat × Nat) :=
  let n := taskCount length workers minWork
  ranges (length / n) (length % n) 0 n

/-- The entries of a list in a range. -/
def slice {α : Type} (l : List α) (range : Nat × Nat) : List α :=
  (l.take range.2).drop range.1

theorem length_ranges (base extra start n : Nat) : (ranges base extra start n).length = n := by
  induction n generalizing extra start with
  | zero => simp [ranges]
  | succ n ih => cases extra <;> simp [ranges, ih]

theorem length_slice {α : Type} (l : List α) {range : Nat × Nat} (h : range.2 ≤ l.length) :
    (slice l range).length = range.2 - range.1 := by
  simp [slice, Nat.min_eq_left h]

end CircuitWitness
