import CircuitWitness.Proofs.Solver.Parallel

/-!
# Complete runs

A run through all instructions of a circuit of rank-one constraints leaves a row for each
constraint. So all that a solution still needs at the end are values for all wires.

Results:
* `WellFormed.rankOne_of_r1cs`: the constraints of such a circuit are rank-one constraints.
* `Progress.rows_filled`: a run through all instructions fills all rows.
* `solution_r1cs`: the solution of a state in which all wires and rows are filled.
-/

namespace CircuitWitness

variable {F : PrimeField} {c : Circuit F}

namespace Circuit

/-- A circuit of rank-one constraints has no gates. -/
theorem WellFormed.no_gate (wf : c.WellFormed) (kind : c.kind = .r1cs) {i : Instruction}
    (mem : i ∈ c.instructions) {g : Gate} : c.operationOf i ≠ .ok (.gate g) := by
  intro decoded
  have allowed := wf.allows mem decoded
  rw [kind] at allowed
  cases allowed

/-- Its constraints are rank-one constraints. -/
theorem WellFormed.rankOne_of_r1cs (wf : c.WellFormed) (kind : c.kind = .r1cs) {i : Instruction}
    {op : Operation} (mem : i ∈ c.instructions) (constraint : c.isConstraint i)
    (decoded : c.operationOf i = .ok op) : ∃ r, op = .r1c r := by
  cases op with
  | r1c r => exact ⟨r, rfl⟩
  | gate g => exact absurd decoded (wf.no_gate kind mem)
  | hint call => exact absurd rfl ((isConstraint_iff_kind decoded).1 constraint)

end Circuit

namespace Solver

variable {hints : HintRegistry} {s s' : State F}

/-- A run through all instructions of a circuit of rank-one constraints fills all rows. -/
theorem Progress.rows_filled (hp : F.IsPrime) (wf : c.WellFormed) (kind : c.kind = .r1cs)
    (small : c.instructions.length ≤ wordRange) {done : List UInt32}
    (progress : Progress c hints done s s')
    (all : ∀ index : UInt32, index.toNat < c.instructions.length → index ∈ done) {k : ℕ}
    (hk : k < c.constraintCount) : ∃ row, s'.rows[k]? = some (some row) := by
  obtain ⟨p, i, found, constraint, number⟩ := wf.exists_constraint hk
  obtain ⟨bound, -⟩ := List.getElem?_eq_some_iff.1 found
  have word : (UInt32.ofNat p).toNat = p := toNat_word (Nat.lt_of_lt_of_le bound small)
  obtain ⟨s₀, s₁, run, later⟩ := progress.ran (UInt32.ofNat p) (all _ (by rwa [word]))
  obtain ⟨j, b, words, op, found', parts, -⟩ := solveInstruction_ok run
  rw [word, found, Option.some.injEq] at found'
  subst found'
  obtain ⟨r, rfl⟩ := wf.rankOne_of_r1cs kind (List.mem_of_getElem? found) constraint
    parts.operation
  have before := c.constraintsBefore_le p
  have own : k ∈ c.ownRow (UInt32.ofNat p).toNat := by
    rw [word, Circuit.ownRow_eq found parts.operation, ← number]
    exact (wf.number_toNat found (by omega)).symm
  obtain ⟨row, recorded⟩ := solveInstruction_records hp run own
  exact ⟨row, later.rows.keeps recorded⟩

theorem completeRows_of_rows (number : ℕ) (rows : List (Row F)) :
    completeRows number (rows.map some) = .ok rows := by
  induction rows generalizing number with
  | nil => rfl
  | cons row rows ih =>
    rw [List.map_cons, completeRows, ih]
    rfl

/-- A list without gaps holds the values of its places. -/
theorem exists_map_some {α : Type} {l : List (Option α)}
    (h : ∀ i < l.length, ∃ x, l[i]? = some (some x)) : ∃ xs : List α, l = xs.map some := by
  induction l with
  | nil => exact ⟨[], rfl⟩
  | cons x l ih =>
    obtain ⟨y, first⟩ := h 0 (Nat.zero_lt_succ _)
    obtain rfl := Option.some.inj first
    obtain ⟨xs, rfl⟩ := ih fun i hi => h (i + 1) (Nat.succ_lt_succ hi)
    exact ⟨y :: xs, rfl⟩

/-- After a run through all instructions the rows make up a list. -/
theorem Progress.rows_of_start (hp : F.IsPrime) (wf : c.WellFormed) (kind : c.kind = .r1cs)
    (small : c.instructions.length ≤ wordRange) {witness : List F.Elem}
    (started : start c hints witness = .ok s) {done : List UInt32}
    (progress : Progress c hints done s s')
    (all : ∀ index : UInt32, index.toNat < c.instructions.length → index ∈ done) :
    ∃ rows : List (Row F), s'.rows = rows.map some := by
  obtain ⟨-, -, fills⟩ := start_ok started
  have length : s'.rows.length = c.constraintCount := by
    rw [progress.fills.rows.1, fills.rows.1]
    simp [State.blank, rowCount, kind]
  exact exists_map_some fun k hk => progress.rows_filled hp wf kind small all (length ▸ hk)

/-- A state in which all wires and rows are filled gives a solution. -/
theorem solution_r1cs (kind : c.kind = .r1cs) (counted : s.Counted) {w : List F.Elem}
    (values : s.values = w.map some) {rows : List (Row F)} (filled : s.rows = rows.map some) :
    solution c s = .ok (.r1cs ⟨w, rows.map Row.a, rows.map Row.b, rows.map Row.c⟩) := by
  simp only [solution, assignment_of_values counted values, kind, filled, completeRows_of_rows]
  rfl

end Solver

end CircuitWitness
