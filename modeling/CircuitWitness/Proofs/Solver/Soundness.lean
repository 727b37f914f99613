import CircuitWitness.Proofs.Circuit.Constraints
import CircuitWitness.Proofs.Solver.Interleaving

/-!
# Solutions are sound

Whatever the edits that made a circuit and whatever its levels, a solution of it can be relied on.
The assignment starts with the inputs. Its columns are the values of the constraints under the
assignment as it is in the end, although each row was noted while wires were still missing. The
constraints hold, and the outputs of every hint call are those of the hint.

All of this is proved of every interleaving of the tasks of a level. What `solve` returns, which
ends one task before it begins the next, comes of one of them.

Results:
* `mayReturn_r1cs_sound`, `mayReturn_sparse_sound`: what interleaved tasks find is sound.
* `solve_r1cs_sound`: solutions of circuits of rank-one constraints.
* `solve_sparse_sound`: solutions of circuits of gates.
-/

namespace CircuitWitness

variable {F : PrimeField}

/-- Every hint call that is an instruction, and has a number of one word, is respected. -/
def Circuit.HintsHold (c : Circuit F) (hints : HintRegistry) (w : List F.Elem) : Prop :=
  ∀ (index : UInt32) (i : Instruction) (call : HintCall), c.instructions[index.toNat]? = some i →
    c.operationOf i = .ok (.hint call) → c.HintHolds hints w call

/-- What makes a solution of a circuit of rank-one constraints one that can be relied on. -/
structure R1csSolution.Sound (c : Circuit F) (hints : HintRegistry) (witness : List F.Elem)
    (sol : R1csSolution F) : Prop where
  wires : sol.w.length = c.wireCount
  inputs : (1 :: witness) <+: sol.w
  constraints : ∃ cs, c.constraints = .ok cs ∧ cs.length = c.constraintCount ∧
    sol.a = cs.map (fun r => c.exprOn sol.w r.l) ∧ sol.b = cs.map (fun r => c.exprOn sol.w r.r) ∧
    sol.c = cs.map (fun r => c.exprOn sol.w r.o) ∧
    ∀ r ∈ cs, c.exprOn sol.w r.l * c.exprOn sol.w r.r = c.exprOn sol.w r.o
  hints : c.HintsHold hints sol.w

/-- The value of an operand of a gate; an id that is no wire counts as the first wire. -/
def operandOn (w : List F.Elem) (x : WireId) : F.Elem := w[x.toNat]?.getD (w.head?.getD 0)

/-- The left side of a gate in its row. -/
def Circuit.gateInRow (c : Circuit F) (w : List F.Elem) (g : Gate) : F.Elem :=
  c.gateAt g (operandOn w g.xa) (operandOn w g.xb) (operandOn w g.xc)

/-- The least power of two that is not below `n`. -/
def IsLeastPowerOfTwo (n m : ℕ) : Prop := (∃ e, m = 2 ^ e) ∧ n ≤ m ∧ ∀ e, n ≤ 2 ^ e → m ≤ 2 ^ e

/-- A row of the three columns. -/
def SparseSolution.row? (sol : SparseSolution F) (k : ℕ) : Option (F.Elem × F.Elem × F.Elem) :=
  match sol.l[k]?, sol.r[k]?, sol.o[k]? with
  | some l, some r, some o => some (l, r, o)
  | _, _, _ => none

/-- What makes a solution of a circuit of gates one that can be relied on. Instructions have
    numbers of one word, so a gate with a later number would not be solved. -/
structure SparseSolution.Sound (c : Circuit F) (hints : HintRegistry) (witness : List F.Elem)
    (sol : SparseSolution F) : Prop where
  wires : sol.w.length = c.wireCount
  inputs : witness <+: sol.w
  rowCount : ∃ rows, IsLeastPowerOfTwo (c.publicNames.length + c.constraintCount) rows ∧
    sol.l.length = rows ∧ sol.r.length = rows ∧ sol.o.length = rows
  publicRows : ∀ k < c.publicNames.length, ∃ x, sol.w[k]? = some x ∧
    sol.row? k = some (x, sol.w.head?.getD 0, sol.w.head?.getD 0)
  gates : ∃ gs, c.gates = .ok gs ∧ gs.length = c.constraintCount ∧
    (∀ (k : ℕ) (g : Gate), gs[k]? = some g → sol.row? (c.publicNames.length + k)
      = some (operandOn sol.w g.xa, operandOn sol.w g.xb, operandOn sol.w g.xc)) ∧
    (∀ (index : UInt32) (i : Instruction) (g : Gate), c.instructions[index.toNat]? = some i →
      c.operationOf i = .ok (.gate g) → gs[i.constraint.toNat]? = some g ∧
        (g.commitment = .plain → c.gateInRow sol.w g = 0)) ∧
    (c.instructions.length ≤ wordRange → ∀ g ∈ gs, g.commitment = .plain →
      c.gateInRow sol.w g = 0)
  padding : ∀ k, c.publicNames.length + c.constraintCount ≤ k → k < sol.l.length →
    sol.row? k = some (sol.w.head?.getD 0, sol.w.head?.getD 0, sol.w.head?.getD 0)
  hints : c.HintsHold hints sol.w

namespace Solver

variable {c : Circuit F} {hints : HintRegistry} {s s' : State F}

/-! ## Instructions of a run -/

/-- An instruction of a run ended well in some state, and what it left is in the last state. -/
theorem Progress.operation {done : List UInt32} (progress : Progress c hints done s s')
    {index : UInt32} (mem : index ∈ done) {i : Instruction} {op : Operation}
    (found : c.instructions[index.toNat]? = some i) (decoded : c.operationOf i = .ok op) :
    ∃ b words s₀ s₁, c.Decoded i b words op ∧
      (solveOperation c hints i.constraint b words op).run s₀ = .ok () s₁ ∧
      Fills .univ .univ s₁ s' := by
  obtain ⟨s₀, s₁, run, later⟩ := progress.ran index mem
  obtain ⟨j, b, words, op', found', parts, ended⟩ := solveInstruction_ok run
  obtain rfl := Option.some.inj (found.symm.trans found')
  obtain rfl := Except.ok.inj (decoded.symm.trans parts.operation)
  exact ⟨b, words, s₀, s₁, parts, ended, later⟩

theorem scheduled_of_found (wf : c.WellFormed) {index : UInt32} {i : Instruction}
    (found : c.instructions[index.toNat]? = some i) : index ∈ c.levels.schedule.flatten := by
  obtain ⟨bound, -⟩ := List.getElem?_eq_some_iff.1 found
  have := wf.scheduled index.toNat bound
  rwa [UInt32.ofNat_toNat] at this

theorem hintsHold (wf : c.WellFormed) (progress : Progress c hints c.levels.schedule.flatten s s')
    {w : List F.Elem} (extension : Extends w s') (one : OneHolds c w) : c.HintsHold hints w := by
  intro index i call found decoded
  obtain ⟨b, words, s₀, s₁, -, run, later⟩ :=
    progress.operation (scheduled_of_found wf found) found decoded
  exact (solveHint_ok run).2 w (extension.of_fills later) one

/-! ## The assignment -/

theorem oneHolds_of_inputs {w witness : List F.Elem} (h : inputsOf c witness <+: w) :
    OneHolds c w := by
  intro kind
  simp only [inputsOf, kind] at h
  obtain ⟨rest, rfl⟩ := h
  rfl

/-- The assignment of a last state extends it, has a value for each wire and begins with the
    inputs. -/
theorem assignment_of_run {config : SolverConfig} {witness w : List F.Elem}
    (begun : start c config.hints witness = .ok s)
    (progress : Progress c config.hints c.levels.schedule.flatten s s')
    (assigned : assignment s' = .ok w) :
    Extends w s' ∧ w.length = c.wireCount ∧ inputsOf c witness <+: w := by
  obtain ⟨-, known, fills⟩ := start_ok begun
  have values := assignment_ok assigned
  have extension := extends_of_values values
  refine ⟨extension, ?_, (known.of_fills progress.fills).prefix_of_extends extension⟩
  have length := congrArg List.length values
  rw [List.length_map, progress.fills.values.1, fills.values.1] at length
  simpa [State.blank] using length.symm

/-! ## Rank-one constraints -/

/-- A row is that of the constraint with a number, and the constraint holds. -/
def HoldsInRow (c : Circuit F) (w : List F.Elem) (k : ℕ) (row : Row F) : Prop :=
  ∃ (p : ℕ) (i : Instruction) (r : R1C), c.instructions[p]? = some i ∧
    c.operationOf i = .ok (.r1c r) ∧ i.constraint.toNat = k ∧ row = c.rowOn w r ∧
    (c.rowOn w r).Holds

/-- A row that is filled is that of the constraint with its number, and the constraint holds. -/
theorem row_of_run (hp : F.IsPrime) {done : List UInt32}
    (progress : Progress c hints done s s') {w : List F.Elem} (extension : Extends w s') (k : ℕ)
    (row : Row F) (fresh : ∀ row' : Row F, s.rows[k]? ≠ some (some row'))
    (filled : s'.rows[k]? = some (some row)) : HoldsInRow c w k row := by
  obtain before | ⟨index, mem, i, r, found, decoded, rfl⟩ := progress.rows k row filled
  · exact absurd before (fresh row)
  · obtain ⟨b, words, s₀, s₁, -, run, later⟩ := progress.operation mem found decoded
    obtain ⟨holds, recorded⟩ := (solveR1C_ok hp run).2 w (extension.of_fills later)
    have last := later.rows.keeps recorded
    rw [filled, Option.some.injEq, Option.some.injEq] at last
    exact ⟨index.toNat, i, r, found, decoded, rfl, last, holds⟩

section Rows

variable {w : List F.Elem} {rows : List (Row F)}

/-- No instruction carries a number beyond a word, so there are no more rows than that. -/
theorem length_rows_le
    (each : ∀ (k : ℕ) (row : Row F), rows[k]? = some row → HoldsInRow c w k row) :
    rows.length ≤ wordRange := by
  by_contra large
  have bound : wordRange < rows.length := Nat.not_le.1 large
  obtain ⟨-, i, -, -, -, number, -⟩ := each _ _ (List.getElem?_eq_getElem bound)
  have word : i.constraint.toNat < wordRange := UInt32.toNat_lt i.constraint
  rw [number] at word
  exact Nat.lt_irrefl _ word

/-- If every row is that of a constraint, every constraint has its row. -/
theorem constraint_of_rows (wf : c.WellFormed) (length : rows.length = c.constraintCount)
    (each : ∀ (k : ℕ) (row : Row F), rows[k]? = some row → HoldsInRow c w k row) {q : ℕ}
    {j : Instruction} (hj : c.instructions[q]? = some j) (cj : c.isConstraint j) :
    ∃ r, c.operationOf j = .ok (.r1c r) ∧
      rows[c.constraintsBefore q]? = some (c.rowOn w r) ∧ (c.rowOn w r).Holds := by
  have small := length_rows_le each
  have bound : c.constraintsBefore q < rows.length := by
    rw [length]
    exact Circuit.constraintsBefore_lt wf hj cj
  obtain ⟨p, i, r, found, decoded, number, row, holds⟩ :=
    each _ _ (List.getElem?_eq_getElem bound)
  have ci := (Circuit.readsAs_r1cOf decoded).isConstraint
  have lt := Circuit.constraintsBefore_lt wf found ci
  rw [wf.number_toNat found (by omega)] at number
  obtain rfl := Circuit.constraintsBefore_injective found hj ci cj number
  obtain rfl := Option.some.inj (found.symm.trans hj)
  exact ⟨r, decoded, by rw [List.getElem?_eq_getElem bound, row], holds⟩

/-- So the constraints can be read, and the rows are theirs. -/
theorem constraints_of_rows (wf : c.WellFormed) (length : rows.length = c.constraintCount)
    (each : ∀ (k : ℕ) (row : Row F), rows[k]? = some row → HoldsInRow c w k row) :
    ∃ cs, c.constraints = .ok cs ∧ cs.length = c.constraintCount ∧ rows = cs.map (c.rowOn w) ∧
      ∀ r ∈ cs, (c.rowOn w r).Holds := by
  have readable : ∃ cs, c.constraints = .ok cs := by
    refine wf.exists_readConstraints fun j mem cj => ?_
    obtain ⟨q, hj⟩ := List.getElem?_of_mem mem
    obtain ⟨r, decoded, -⟩ := constraint_of_rows wf length each hj cj
    exact ⟨r, Circuit.readsAs_r1cOf decoded⟩
  obtain ⟨cs, read⟩ := readable
  obtain ⟨count, -, origin⟩ := Circuit.readConstraints_ok read
  rw [← wf.count] at count
  have rowAt (k : ℕ) (r : R1C) (listed : cs[k]? = some r) :
      rows[k]? = some (c.rowOn w r) ∧ (c.rowOn w r).Holds := by
    obtain ⟨p, i, found, reads, rfl⟩ := origin k r listed
    obtain ⟨r', decoded, row, holds⟩ := constraint_of_rows wf length each found reads.isConstraint
    rw [reads.unique (Circuit.readsAs_r1cOf decoded)]
    exact ⟨row, holds⟩
  refine ⟨cs, read, count, List.ext_getElem? fun k => ?_, fun r mem => ?_⟩
  · cases listed : cs[k]? with
    | none =>
      rw [List.getElem?_map, listed, Option.map_none, List.getElem?_eq_none_iff]
      rw [List.getElem?_eq_none_iff] at listed
      omega
    | some r => rw [List.getElem?_map, listed, Option.map_some, (rowAt k r listed).1]
  · obtain ⟨k, listed⟩ := List.getElem?_of_mem mem
    exact (rowAt k r listed).2

end Rows

/-- Every solution that interleaved tasks may find for a circuit of rank-one constraints is
    sound. -/
theorem mayReturn_r1cs_sound (hp : F.IsPrime) (reachable : c.Reachable) {config : SolverConfig}
    {witness : List F.Elem} {sol : R1csSolution F}
    (h : MayReturn c config witness (.ok (.r1cs sol))) : sol.Sound c config.hints witness := by
  have wf := reachable.wellFormed
  obtain ⟨s, s', begun, progress, ended⟩ := mayReturn_ok h
  obtain ⟨w, assigned, ended⟩ := except_bind_ok.1 ended
  obtain ⟨extension, wires, inputs⟩ := assignment_of_run begun progress assigned
  cases kind : c.kind with
  | sparse =>
    simp only [kind] at ended
    obtain ⟨gates, -, bad⟩ := except_bind_ok.1 ended
    cases Except.ok.inj bad
  | r1cs =>
    simp only [kind] at ended
    obtain ⟨rows, complete, last⟩ := except_bind_ok.1 ended
    obtain rfl := Solution.r1cs.inj (Except.ok.inj last)
    have values := completeRows_ok complete
    obtain ⟨-, -, fills⟩ := start_ok begun
    have length : rows.length = c.constraintCount := by
      have := congrArg List.length values
      rw [List.length_map, progress.fills.rows.1, fills.rows.1] at this
      simpa [State.blank, rowCount, kind] using this.symm
    obtain ⟨cs, read, count, rfl, holds⟩ := constraints_of_rows wf length fun k row listed => by
      refine row_of_run hp progress extension k row (fun row' before => ?_) ?_
      · rw [fills.rows.outside (Set.notMem_empty k)] at before
        simp only [State.blank, List.getElem?_replicate] at before
        split at before <;> simp at before
      · rw [values, List.getElem?_map, listed, Option.map_some]
    refine ⟨wires, by simpa [inputsOf, kind] using inputs, ⟨cs, read, count, ?_, ?_, ?_, holds⟩,
      hintsHold wf progress extension (oneHolds_of_inputs inputs)⟩
    all_goals simp [Circuit.rowOn]

/-- A solution of a circuit of rank-one constraints is sound, however the circuit came about: the
    one that tasks find one after the other, and each that they may find together. -/
theorem solve_r1cs_sound (hp : F.IsPrime) {c : Circuit F} (reachable : c.Reachable)
    (config : SolverConfig) (witness : List F.Elem) (sol : R1csSolution F) :
    (solve c config witness = .ok (.r1cs sol) → sol.Sound c config.hints witness) ∧
      (MayReturn c config witness (.ok (.r1cs sol)) → sol.Sound c config.hints witness) := by
  have interleaved (h : MayReturn c config witness (.ok (.r1cs sol))) :
      sol.Sound c config.hints witness := mayReturn_r1cs_sound hp reachable h
  exact ⟨fun solved => interleaved (mayReturn_of_solve solved), interleaved⟩

/-- The constraint `x ⋅ x = y`, and in the next level the constraint `x ⋅ y = z` and a hint that
    sets two wires to the last bits of `y`. -/
def cubeCircuit : Circuit .tiny :=
  [.secretInput "x", .internal, .internal, .internal, .internal, .blueprint .genericR1C,
    .blueprint .genericHint, .r1c ⟨[⟨1, 1⟩], [⟨1, 1⟩], [⟨1, 2⟩]⟩ 0,
    .r1c ⟨[⟨1, 1⟩], [⟨1, 2⟩], [⟨1, 3⟩]⟩ 0,
    .hint ⟨hintId "bits", [[⟨1, 2⟩]], [4, 5]⟩ "bits" 1].foldl Edit.apply (.empty .tiny .r1cs)

/-- The wires of one, `x = 5`, `y` and `z`, then the bits; and the columns. -/
def cubeSolution : R1csSolution .tiny :=
  ⟨[1, .ofNat 5, .ofNat 25, .ofNat 31, 1, 0], [.ofNat 5, .ofNat 5], [.ofNat 5, .ofNat 25],
    [.ofNat 25, .ofNat 31]⟩

theorem solve_cubeCircuit_sound :
    cubeCircuit.levels.schedule.map (isSplit twoWorkers) = [false, true] ∧
      solve cubeCircuit twoWorkers [.ofNat 5] = .ok (.r1cs cubeSolution) ∧
      MayReturn cubeCircuit twoWorkers [.ofNat 5] (.ok (.r1cs cubeSolution)) ∧
      cubeSolution.Sound cubeCircuit twoWorkers.hints [.ofNat 5] := by
  have facts : cubeCircuit.levels.schedule.map (isSplit twoWorkers) = [false, true] ∧
      solve cubeCircuit twoWorkers [.ofNat 5] = .ok (.r1cs cubeSolution) := by decide +kernel
  obtain ⟨split, solved⟩ := facts
  have reachable : cubeCircuit.Reachable := Circuit.Reachable.edits (.empty .r1cs) _
  have may := mayReturn_of_solve solved
  obtain ⟨-, interleaved⟩ :=
    solve_r1cs_sound PrimeField.isPrime_tiny reachable twoWorkers [.ofNat 5] cubeSolution
  exact ⟨split, solved, may, interleaved may⟩

/-! ## Gates -/

theorem isLeastPowerOfTwo_powerOfTwoFrom (n : ℕ) : IsLeastPowerOfTwo n (powerOfTwoFrom n) := by
  refine ⟨?_, le_powerOfTwoFrom n, fun e fits => ?_⟩
  · unfold powerOfTwoFrom
    split
    · exact ⟨0, rfl⟩
    · exact ⟨_, rfl⟩
  · unfold powerOfTwoFrom
    split
    · exact Nat.one_le_two_pow
    · have below : (n - 1).log2 < e := (Nat.log2_lt (by omega)).2 (by omega)
      exact Nat.pow_le_pow_right (by decide) below

/-- Operands without weight may be no wires at all; the gate has the same value. -/
theorem gateInRow_eq {w : List F.Elem} {g : Gate} (h : ∀ x ∈ g.wires, ∃ v, w[x.toNat]? = some v) :
    c.gateInRow w g = c.gateOn w g := by
  have operand {used : Bool} {x : WireId} {q : F.Elem} (unused : used = false → q = 0)
      (mem : used = true → x ∈ g.wires) : q * operandOn w x = q * wireOn w x := by
    cases used with
    | false => rw [unused rfl, zero_mul, zero_mul]
    | true =>
      obtain ⟨v, valueAt⟩ := h x (mem rfl)
      rw [operandOn, valueAt, wireOn_eq valueAt, Option.getD_some]
  have memA (used : g.usesA = true) : g.xa ∈ g.wires := Gate.mem_wires.2 (.inl ⟨used, rfl⟩)
  have memB (used : g.usesB = true) : g.xb ∈ g.wires := Gate.mem_wires.2 (.inr (.inl ⟨used, rfl⟩))
  have memC (used : g.usesC = true) : g.xc ∈ g.wires := Gate.mem_wires.2 (.inr (.inr ⟨used, rfl⟩))
  have l := operand (fun no => (g.coeffOn_of_not_usesA c no).1) memA
  have m₀ := operand (fun no => (g.coeffOn_of_not_usesA c no).2) memA
  have r := operand (fun no => (g.coeffOn_of_not_usesB c no).1) memB
  have m₁ := operand (fun no => (g.coeffOn_of_not_usesB c no).2) memB
  have o := operand (g.coeffOn_of_not_usesC c) memC
  simp only [Circuit.gateInRow, Circuit.gateOn, Circuit.gateAt]
  linear_combination l + r + o + operandOn w g.xb * m₀ + wireOn w g.xa * m₁

/-- A plain gate that is an instruction holds in its row. -/
theorem gate_of_run (hp : F.IsPrime) (wf : c.WellFormed)
    (progress : Progress c hints c.levels.schedule.flatten s s') {w : List F.Elem}
    (extension : Extends w s') {index : UInt32} {i : Instruction} {g : Gate}
    (found : c.instructions[index.toNat]? = some i) (decoded : c.operationOf i = .ok (.gate g))
    (plain : g.commitment = .plain) : c.gateInRow w g = 0 := by
  obtain ⟨b, words, s₀, s₁, parts, run, later⟩ :=
    progress.operation (scheduled_of_found wf found) found decoded
  obtain ⟨solved, holds⟩ := solvePackedGate_ok hp parts.read.2 run
  have before := extension.of_fills later
  rw [gateInRow_eq fun x hx => ?_]
  · exact holds plain w before
  · obtain ⟨v, valueAt⟩ := solved (by simp [plain]) x hx
    exact ⟨v, before _ _ valueAt⟩

/-! ## Columns -/

variable {front : List F.Elem} {gs : List Gate} {f : Gate → F.Elem} {rows : ℕ} {pad : F.Elem}

theorem length_fillUp (fits : front.length + gs.length ≤ rows) :
    (fillUp rows pad (front ++ gs.map f)).length = rows := by
  simp only [fillUp, List.length_append, List.length_map, List.length_replicate]
  omega

theorem fillUp_front {k : ℕ} (hk : k < front.length) :
    (fillUp rows pad (front ++ gs.map f))[k]? = front[k]? := by
  rw [fillUp, List.getElem?_append_left (by rw [List.length_append]; omega),
    List.getElem?_append_left hk]

theorem fillUp_gate (rows : ℕ) (pad : F.Elem) (front : List F.Elem) (f : Gate → F.Elem) {k : ℕ}
    {g : Gate} (listed : gs[k]? = some g) :
    (fillUp rows pad (front ++ gs.map f))[front.length + k]? = some (f g) := by
  obtain ⟨hk, -⟩ := List.getElem?_eq_some_iff.1 listed
  rw [fillUp, List.getElem?_append_left (by simp; omega), List.getElem?_append_right (by omega),
    Nat.add_sub_cancel_left, List.getElem?_map, listed, Option.map_some]

theorem fillUp_pad {k : ℕ} (hk : front.length + gs.length ≤ k) (below : k < rows) :
    (fillUp rows pad (front ++ gs.map f))[k]? = some pad := by
  rw [fillUp, List.getElem?_append_right (by simp; omega), List.getElem?_replicate,
    if_pos (by simp; omega)]

/-! ## Solutions of circuits of gates -/

/-- The rows of a solution: the public inputs, the operands of the gates, and the first wire. -/
theorem row?_ofAssignment {w : List F.Elem} {publicCount : ℕ} (gs : List Gate)
    (publicFits : publicCount ≤ w.length) :
    let sol := SparseSolution.ofAssignment w publicCount gs
    let rows := powerOfTwoFrom (publicCount + gs.length)
    let first := w.head?.getD 0
    (sol.l.length = rows ∧ sol.r.length = rows ∧ sol.o.length = rows) ∧
      (∀ k < publicCount, ∃ x, w[k]? = some x ∧ sol.row? k = some (x, first, first)) ∧
      (∀ (k : ℕ) (g : Gate), gs[k]? = some g → sol.row? (publicCount + k)
        = some (operandOn w g.xa, operandOn w g.xb, operandOn w g.xc)) ∧
      ∀ k, publicCount + gs.length ≤ k → k < rows → sol.row? k = some (first, first, first) := by
  intro sol rows first
  have front : (w.take publicCount).length = publicCount := by
    rw [List.length_take]
    omega
  have pads : ((w.take publicCount).map fun _ => first).length = publicCount := by
    rw [List.length_map, front]
  have fits := le_powerOfTwoFrom (publicCount + gs.length)
  refine ⟨⟨?_, ?_, ?_⟩, fun k hk => ?_, fun k g listed => ?_, fun k hk below => ?_⟩
  · exact length_fillUp (by rw [front]; exact fits)
  · exact length_fillUp (by rw [pads]; exact fits)
  · exact length_fillUp (by rw [pads]; exact fits)
  · have bound : k < w.length := by omega
    have pad : ((w.take publicCount).map fun _ => first)[k]? = some first := by
      rw [List.getElem?_map, List.getElem?_eq_getElem (by omega), Option.map_some]
    refine ⟨w[k], List.getElem?_eq_getElem bound, ?_⟩
    simp only [SparseSolution.row?, sol, SparseSolution.ofAssignment]
    rw [fillUp_front (by omega), fillUp_front (by rw [List.length_map]; omega),
      fillUp_front (by rw [List.length_map]; omega), pad, List.getElem?_take_of_lt hk,
      List.getElem?_eq_getElem bound]
  · have l := fillUp_gate rows first (w.take publicCount) (fun g => operandOn w g.xa) listed
    have r := fillUp_gate rows first ((w.take publicCount).map fun _ => first)
      (fun g => operandOn w g.xb) listed
    have o := fillUp_gate rows first ((w.take publicCount).map fun _ => first)
      (fun g => operandOn w g.xc) listed
    rw [front] at l
    rw [pads] at r o
    simp only [operandOn] at l r o ⊢
    simp only [SparseSolution.row?, sol, SparseSolution.ofAssignment]
    rw [l, r, o]
  · simp only [SparseSolution.row?, sol, SparseSolution.ofAssignment]
    rw [fillUp_pad (by omega) below, fillUp_pad (by rw [pads]; omega) below,
      fillUp_pad (by rw [pads]; omega) below]

/-- Where the gates of a circuit are listed by their numbers, those that are plain hold in their
    rows, as far as instructions have numbers of one word. -/
theorem gates_of_run (hp : F.IsPrime) (wf : c.WellFormed)
    (progress : Progress c hints c.levels.schedule.flatten s s') {w : List F.Elem}
    (extension : Extends w s') {gs : List Gate} (read : c.gates = .ok gs) :
    (∀ (index : UInt32) (i : Instruction) (g : Gate), c.instructions[index.toNat]? = some i →
      c.operationOf i = .ok (.gate g) → gs[i.constraint.toNat]? = some g ∧
        (g.commitment = .plain → c.gateInRow w g = 0)) ∧
    (c.instructions.length ≤ wordRange → ∀ g ∈ gs, g.commitment = .plain →
      c.gateInRow w g = 0) := by
  refine ⟨fun index i g found decoded => ⟨?_, ?_⟩, fun small g mem plain => ?_⟩
  · rw [wf.number_toNat found]
    · exact Circuit.getElem?_of_readsAs found (Circuit.readsAs_gateOf.2 decoded) read
    · exact Nat.lt_of_le_of_lt (c.constraintsBefore_le _) (UInt32.toNat_lt index)
  · exact gate_of_run hp wf progress extension found decoded
  · obtain ⟨-, -, origin⟩ := Circuit.readConstraints_ok read
    obtain ⟨k, hk, rfl⟩ := List.getElem_of_mem mem
    obtain ⟨p, i, found, reads, -⟩ := origin k _ (List.getElem?_eq_getElem hk)
    have bound : p < wordRange := by
      have := (List.getElem?_eq_some_iff.1 found).1
      omega
    rw [← toNat_word bound] at found
    exact gate_of_run hp wf progress extension found (Circuit.readsAs_gateOf.1 reads) plain

/-- Every solution that interleaved tasks may find for a circuit of gates is sound. -/
theorem mayReturn_sparse_sound (hp : F.IsPrime) (reachable : c.Reachable) {config : SolverConfig}
    {witness : List F.Elem} {sol : SparseSolution F}
    (h : MayReturn c config witness (.ok (.sparse sol))) : sol.Sound c config.hints witness := by
  have wf := reachable.wellFormed
  obtain ⟨s, s', begun, progress, ended⟩ := mayReturn_ok h
  obtain ⟨w, assigned, ended⟩ := except_bind_ok.1 ended
  obtain ⟨extension, wires, inputs⟩ := assignment_of_run begun progress assigned
  obtain ⟨size, -⟩ := start_ok begun
  cases kind : c.kind with
  | r1cs =>
    simp only [kind] at ended
    obtain ⟨rows, -, bad⟩ := except_bind_ok.1 ended
    cases Except.ok.inj bad
  | sparse =>
    simp only [kind] at ended
    obtain ⟨gs, read, last⟩ := except_bind_ok.1 ended
    obtain rfl := Solution.sparse.inj (Except.ok.inj last)
    have read : c.gates = .ok gs := except_mapError_ok.1 read
    obtain ⟨count, -⟩ := Circuit.readConstraints_ok read
    rw [← wf.count] at count
    have startsWith : witness <+: w := by simpa [inputsOf, kind] using inputs
    have publicFits : c.publicNames.length ≤ w.length := by
      have := startsWith.length_le
      simp only [Circuit.witnessLength, kind, Circuit.inputCount] at size
      omega
    obtain ⟨lengths, publicRows, gateRows, padding⟩ := row?_ofAssignment gs publicFits
    rw [count] at lengths padding
    obtain ⟨places, hold⟩ := gates_of_run hp wf progress extension read
    exact ⟨wires, startsWith, ⟨_, isLeastPowerOfTwo_powerOfTwoFrom _, lengths⟩, publicRows,
      ⟨gs, read, count, gateRows, places, hold⟩,
      fun k hk below => padding k hk (by rwa [← lengths.1]),
      hintsHold wf progress extension (oneHolds_of_inputs inputs)⟩

/-- A solution of a circuit of gates is sound, however the circuit came about: the one that tasks
    find one after the other, and each that they may find together. -/
theorem solve_sparse_sound (hp : F.IsPrime) {c : Circuit F} (reachable : c.Reachable)
    (config : SolverConfig) (witness : List F.Elem) (sol : SparseSolution F) :
    (solve c config witness = .ok (.sparse sol) → sol.Sound c config.hints witness) ∧
      (MayReturn c config witness (.ok (.sparse sol)) → sol.Sound c config.hints witness) := by
  have interleaved (h : MayReturn c config witness (.ok (.sparse sol))) :
      sol.Sound c config.hints witness := mayReturn_sparse_sound hp reachable h
  exact ⟨fun solved => interleaved (mayReturn_of_solve solved), interleaved⟩

/-- The gate `x ⋅ x - y = 0`, and in the next level the gate `x ⋅ y - z = 0` and a hint that sets
    two wires to the last bits of `y`. -/
def cubeGates : Circuit .tiny :=
  [.secretInput "x", .internal, .internal, .internal, .internal, .blueprint .mul,
    .blueprint .genericHint, .gate (.product 1 0 0 1) 0, .gate (.product 1 0 1 2) 0,
    .hint ⟨hintId "bits", [[⟨1, 1⟩]], [3, 4]⟩ "bits" 1].foldl Edit.apply (.empty .tiny .sparse)

/-- The wires of `x = 5`, `y` and `z`, then the bits; and the columns. -/
def cubeGatesSolution : SparseSolution .tiny :=
  ⟨[.ofNat 5, .ofNat 25, .ofNat 31, 1, 0], [.ofNat 5, .ofNat 5], [.ofNat 5, .ofNat 25],
    [.ofNat 25, .ofNat 31]⟩

theorem solve_cubeGates_sound :
    cubeGates.levels.schedule.map (isSplit twoWorkers) = [false, true] ∧
      solve cubeGates twoWorkers [.ofNat 5] = .ok (.sparse cubeGatesSolution) ∧
      MayReturn cubeGates twoWorkers [.ofNat 5] (.ok (.sparse cubeGatesSolution)) ∧
      cubeGatesSolution.Sound cubeGates twoWorkers.hints [.ofNat 5] := by
  have facts : cubeGates.levels.schedule.map (isSplit twoWorkers) = [false, true] ∧
      solve cubeGates twoWorkers [.ofNat 5] = .ok (.sparse cubeGatesSolution) := by decide +kernel
  obtain ⟨split, solved⟩ := facts
  have reachable : cubeGates.Reachable := Circuit.Reachable.edits (.empty .sparse) _
  have may := mayReturn_of_solve solved
  obtain ⟨-, interleaved⟩ :=
    solve_sparse_sound PrimeField.isPrime_tiny reachable twoWorkers [.ofNat 5] cubeGatesSolution
  exact ⟨split, solved, may, interleaved may⟩

end Solver

end CircuitWitness
