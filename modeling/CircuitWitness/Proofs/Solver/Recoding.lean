import CircuitWitness.Proofs.Circuit.Recoding
import CircuitWitness.Proofs.Solver.AppendOrder

/-!
# Solving special layouts

A product, a sum or a bit in a layout of its own can be solved in closed form. The generic layout
has no closed form, so there the same gate is always solved as a polynomial. What a circuit comes to
does not depend on the layouts: each instruction fills the same places with the same values, or it
meets the same failure.

Results:
* `solvePlain_withCode`: what an operation does hangs on no code.
* `solveInstruction_alike`: an instruction does the same in other code.
* `runInstructions_alike`: so a run in other code comes to the same.
* `solve_recoded`: special layouts are compression and nothing else.
-/

namespace CircuitWitness

variable {F : PrimeField}

namespace Solver

variable {c d : Circuit F} {hints : HintRegistry} {s t : State F}

/-! ## Operations -/

theorem inputValues_withCode (is : List Instruction) (ws : CallData) (hint : HintId)
    (es : List LinearExpr) :
    inputValues (c.withCode is ws) hint es = inputValues c hint es := by
  induction es with
  | nil => rfl
  | cons e es ih =>
    rw [inputValues, ih]
    rfl

theorem solvePlain_withCode (c : Circuit F) (is : List Instruction) (ws : CallData)
    (hints : HintRegistry) (constraint : UInt32) (op : Operation) :
    solvePlain (c.withCode is ws) hints constraint op = solvePlain c hints constraint op := by
  cases op with
  | r1c r => rfl
  | gate g => rfl
  | hint call =>
    simp only [solvePlain, solveHint, inputValues_withCode]
    rfl

/-! ## Runs -/

/-- An instruction does the same in other code. -/
theorem solveInstruction_alike (hp : F.IsPrime) (alike : c.Alike d) (hints : HintRegistry)
    (index : UInt32) (size : s.values.length = c.wireCount) (agree : Agree .univ .univ s t) :
    Similar .univ .univ ((solveInstruction c hints index).run s)
      ((solveInstruction d hints index).run t) := by
  cases found : c.instructions[index.toNat]? with
  | none =>
    have found' : d.instructions[index.toNat]? = none := by
      rw [List.getElem?_eq_none_iff] at found ⊢
      rwa [alike.length]
    simp only [solveInstruction, found, found']
    exact .error rfl
  | some i =>
    obtain ⟨j, op, found', number, decoded, decoded', inRange⟩ := alike.instruction found
    obtain ⟨b, words, parts⟩ := Circuit.Decoded.of_operationOf decoded
    obtain ⟨b', words', parts'⟩ := Circuit.Decoded.of_operationOf decoded'
    rw [solveInstruction_eq found parts, solveInstruction_eq found' parts']
    obtain ⟨is, ws, rfl⟩ := alike.code
    have left := solveOperation_similar hp hints parts inRange size
    have right : Similar .univ .univ
        ((solveOperation (c.withCode is ws) hints j.constraint b' words' op).run t)
        ((solvePlain c hints i.constraint op).run t) := by
      rw [← solvePlain_withCode c is ws, ← number]
      refine solveOperation_similar hp hints parts' ?_ ?_
      · exact inRange.mono (Nat.le_refl _) (Nat.le_refl _)
      · rw [← agree.wireCount]
        exact size
    have plain := (Local.solvePlain c hints i.constraint op).everywhere
      (.solvePlain c hints i.constraint op) s t agree
    exact (left.trans plain).trans right.symm

/-- A run in other code comes to the same. -/
theorem runInstructions_alike (hp : F.IsPrime) (alike : c.Alike d) (hints : HintRegistry)
    (l : List UInt32) (size : s.values.length = c.wireCount) (agree : Agree .univ .univ s t) :
    Similar .univ .univ ((runInstructions c hints l).run s)
      ((runInstructions d hints l).run t) := by
  induction l generalizing s t with
  | nil => exact .ok agree
  | cons index l ih =>
    have first := solveInstruction_alike hp alike hints index size agree
    simp only [runInstructions, EStateM.run_bind]
    cases hs : (solveInstruction c hints index).run s with
    | error e s' =>
      rw [hs] at first
      obtain ⟨e', t', ht, gist⟩ := first.of_error
      rw [ht]
      exact .error gist
    | ok u s' =>
      rw [hs] at first
      obtain ⟨t', ht, agree'⟩ := first.of_ok
      rw [ht]
      exact ih ((Progress.single hs).fills.values.1.trans size) agree'

/-! ## Attempts -/

theorem start_alike (alike : c.Alike d) (hints : HintRegistry) (witness : List F.Elem) :
    start d hints witness = start c hints witness := by
  obtain ⟨is, ws, rfl⟩ := alike.code
  rfl

theorem solution_alike (alike : c.Alike d) (gates : d.gates = c.gates) (s : State F) :
    solution d s = solution c s := by
  unfold solution
  rw [gates]
  obtain ⟨is, ws, rfl⟩ := alike.code
  rfl

/-- A single worker comes to the same. -/
theorem solve_alike (hp : F.IsPrime) (alike : c.Alike d) (gates : d.gates = c.gates)
    {config : SolverConfig} (alone : config.workerCount ≤ 1) (witness : List F.Elem) :
    (solve d config witness).mapError Error.gist
      = (solve c config witness).mapError Error.gist := by
  simp only [solve, attempt, start_alike alike, runLevels_alone alone, alike.levels_eq]
  cases started : start c config.hints witness with
  | error e => rfl
  | ok s =>
    have begun := start_begun started
    have similar := runInstructions_alike hp alike config.hints c.levels.schedule.flatten begun.size
      (.refl .univ .univ s)
    cases hs : (runInstructions c config.hints c.levels.schedule.flatten).run s with
    | error e s' =>
      rw [hs] at similar
      obtain ⟨e', t', ht, gist⟩ := similar.of_error
      simp only [hs, ht, Except.mapError, gist]
    | ok u s' =>
      rw [hs] at similar
      obtain ⟨t', ht, agree⟩ := similar.of_ok
      have counted := (runInstructions_ok hs).fills.counted begun.counted
      have counted' := (runInstructions_ok ht).fills.counted begun.counted
      simp only [hs, ht, solution_alike alike gates, solution_congr agree counted counted']

/-- Special layouts are compression and nothing else: the levels, the gates, the wires without a
    constraint, and what a single worker finds or why it fails, are those of the circuit with the
    generic layout instead. As places in the buffers are words of 64 bits, neither may be longer. -/
theorem solve_recoded (hp : F.IsPrime) (h : c.Recoded d) (small : c.callData.length < 2 ^ 64)
    (small' : d.callData.length < 2 ^ 64) : d.levels = c.levels ∧
      (∃ gs, c.gates = .ok gs ∧ d.gates = .ok gs) ∧
      (∀ policy, d.checkUnconstrained policy = c.checkUnconstrained policy) ∧
      ∀ (config : SolverConfig) (witness : List F.Elem),
        (solve d (config.withWorkers 1) witness).mapError Error.gist
          = (solve c (config.withWorkers 1) witness).mapError Error.gist := by
  have alike := h.alike small small'
  have wf := h.built.1.reachable.wellFormed
  obtain ⟨gs, gates, gates'⟩ := alike.gates_eq wf h.kind
  have same : d.gates = c.gates := gates'.trans gates.symm
  have alone (config : SolverConfig) : (config.withWorkers 1).workerCount ≤ 1 := Nat.le_refl 1
  refine ⟨alike.levels_eq, ⟨gs, gates, gates'⟩, fun policy => ?_, fun config witness => ?_⟩
  · rw [Circuit.checkUnconstrained, Circuit.checkUnconstrained, alike.unconstrainedWires_eq]
  · exact solve_alike hp alike same (alone config) witness

/-- The wires `x`, `y` and `z` of a circuit, and the layouts of its gates. -/
def layoutTable : Circuit .tiny :=
  [.secretInput "x", .internal, .internal, .blueprint .mul, .blueprint .add, .blueprint .bool,
    .blueprint .genericGate].foldl Edit.apply (.empty .tiny .sparse)

/-- The product `y = x⋅x`, the sum `z = x + y` and the check that `y` is a bit, in the given
    layouts. -/
def layoutCircuit (product sum bit : BlueprintId) : Circuit .tiny :=
  [.gate (.product CoeffId.one 0 0 1) product, .gate (.sum 0 1 2 CoeffId.one CoeffId.one 0) sum,
    .gate (.bit 1 CoeffId.minusOne CoeffId.one) bit].foldl Edit.apply layoutTable

theorem recoded_layoutCircuit : (layoutCircuit 0 1 2).Recoded (layoutCircuit 3 3 3) := by
  have table : layoutTable.Recoded layoutTable := .edits .empty (by simp [Edit.isAutomatic])
  have product : Circuit.Recoded ((Edit.gate (.product CoeffId.one 0 0 1) 0).apply layoutTable)
      ((Edit.gate (.product CoeffId.one 0 0 1) 3).apply layoutTable) :=
    .gate (b := .mul) (by decide +kernel) rfl (by decide +kernel) rfl (by decide +kernel) table
  have sum : Circuit.Recoded ((Edit.gate (.sum 0 1 2 CoeffId.one CoeffId.one 0) 1).apply _)
      ((Edit.gate (.sum 0 1 2 CoeffId.one CoeffId.one 0) 3).apply _) :=
    .gate (b := .add) (by decide +kernel) rfl (by decide +kernel) rfl (by decide +kernel) product
  simp only [layoutCircuit, List.foldl_cons, List.foldl_nil]
  exact .gate (b := .bool) (by decide +kernel) rfl (by decide +kernel) rfl (by decide +kernel) sum

/-- The generic layout takes more room for the same solution. -/
theorem solve_layoutCircuit :
    (layoutCircuit 0 1 2).callData.length < (layoutCircuit 3 3 3).callData.length ∧
      ∃ sol, solve (layoutCircuit 0 1 2) (noHints.withWorkers 1) [.ofNat 46] = .ok (.sparse sol) ∧
        sol.w = [.ofNat 46, 1, 0] ∧
        solve (layoutCircuit 3 3 3) (noHints.withWorkers 1) [.ofNat 46] = .ok (.sparse sol) := by
  have facts : ((layoutCircuit 0 1 2).callData.length = 13 ∧
      (layoutCircuit 3 3 3).callData.length = 27) ∧
      solve (layoutCircuit 0 1 2) (noHints.withWorkers 1) [.ofNat 46] = .ok (.sparse
        ⟨[.ofNat 46, 1, 0], [.ofNat 46, .ofNat 46, 1, .ofNat 46], [.ofNat 46, 1, 1, .ofNat 46],
          [1, 0, 1, .ofNat 46]⟩) := by
    decide +kernel
  obtain ⟨⟨room, room'⟩, solved⟩ := facts
  obtain ⟨-, -, -, same⟩ := solve_recoded PrimeField.isPrime_tiny recoded_layoutCircuit
    (by rw [room]; decide) (by rw [room']; decide)
  have outcome := same noHints [.ofNat 46]
  rw [solved] at outcome
  refine ⟨by rw [room, room']; decide, _, solved, rfl, ?_⟩
  cases other : solve (layoutCircuit 3 3 3) (noHints.withWorkers 1) [.ofNat 46] with
  | error e =>
    rw [other] at outcome
    cases outcome
  | ok sol =>
    rw [other] at outcome
    exact outcome

end Solver

end CircuitWitness
