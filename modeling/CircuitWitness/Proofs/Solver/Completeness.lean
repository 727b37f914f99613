import CircuitWitness.Proofs.Solver.AppendOrder
import CircuitWitness.Proofs.Solver.Satisfaction

/-!
# Assignments that are found

A circuit of rank-one constraints may admit many assignments for a witness. If every internal wire
is defined by an instruction, and each instruction leaves no choice for the wires that it defines,
there is one, and solving finds it. In the order of addition an instruction finds exactly those of
its wires unsolved that it defines; so its values are those of the assignment, and with them the
next instruction is in the same position.

Results:
* `exists_start`: the inputs can be set.
* `solves_iff_defines`: an instruction solves the wires that it defines.
* `solveInstruction_run`: an instruction finds the values of an admitted assignment.
* `solve_complete`: solving finds the admitted assignment, whatever the workers do.
-/

namespace CircuitWitness

variable {F : PrimeField} {c : Circuit F}

namespace Circuit

/-- An operation holds under an assignment. -/
def Respects (c : Circuit F) (hints : HintRegistry) (w : List F.Elem) : Operation → Prop
  | .r1c r => (c.rowOn w r).Holds
  | .gate g => g.commitment = .plain → c.gateOn w g = 0
  | .hint call => c.HintHolds hints w call

/-- An assignment of all wires that agrees with a witness on the inputs, and under which all
    operations hold. -/
structure Admits (c : Circuit F) (hints : HintRegistry) (witness w : List F.Elem) : Prop where
  size : witness.length = c.witnessLength
  length : w.length = c.wireCount
  inputs : 1 :: witness <+: w
  operations : ∀ p op, c.operationAt p = some op → c.Respects hints w op

/-- A constraint defines one wire at most, through one term, whose value follows from those of the
    others. -/
def LeavesNoChoice (c : Circuit F) (w : List F.Elem) (p : ℕ) : Operation → Prop
  | .r1c r => (r.terms.filter fun t => c.Defines p t.wire).length ≤ 1 ∧
    ∀ t ∈ r.terms, c.Defines p t.wire → c.Follows w r t
  | .gate _ | .hint _ => True

/-- Every internal wire is defined, hints read what was known before, and no constraint leaves a
    choice for what it defines. -/
structure Determines (c : Circuit F) (w : List F.Elem) : Prop where
  covers : ∀ i, c.inputCount ≤ i → i < c.wireCount → ∃ p x, c.Defines p x ∧ x.toNat = i
  known : c.ReadsKnown
  single : ∀ p op, c.operationAt p = some op → c.LeavesNoChoice w p op

/-! ## Decisions -/

instance (hints : HintRegistry) (w : List F.Elem) (call : HintCall) :
    Decidable (c.HintHolds hints w call) :=
  decidable_of_iff (∃ hint ∈ hints.find? call.hint, ∃ outputs ∈ (hint.function.outputs F.modulus
      (call.inputs.map fun e => (c.exprOn w e).val) call.outputs.length).toOption,
      call.outputs.map (fun x => w[x.toNat]?) = outputs.map fun n => some (.ofNat n)) (by
    simp only [HintHolds, Option.mem_def, except_toOption_eq_some]
    constructor
    · rintro ⟨hint, found, outputs, called, given⟩
      exact ⟨hint, outputs, found, called, given⟩
    · rintro ⟨hint, outputs, found, called, given⟩
      exact ⟨hint, found, outputs, called, given⟩)

instance (hints : HintRegistry) (w : List F.Elem) : (op : Operation) →
    Decidable (c.Respects hints w op)
  | .r1c r => inferInstanceAs (Decidable ((c.rowOn w r).a * (c.rowOn w r).b = (c.rowOn w r).c))
  | .gate g => inferInstanceAs (Decidable (g.commitment = .plain → c.gateOn w g = 0))
  | .hint call => inferInstanceAs (Decidable (c.HintHolds hints w call))

instance (w : List F.Elem) (r : R1C) (t : Term) : Decidable (c.Follows w r t) :=
  decidable_of_iff (t.isZero = false ∧ (t ∈ r.l → c.exprOn w r.r ≠ 0) ∧
      (t ∈ r.r → c.exprOn w r.l ≠ 0))
    ⟨fun ⟨weight, left, right⟩ => ⟨weight, left, right⟩,
      fun h => ⟨h.weight, h.left, h.right⟩⟩

instance (hints : HintRegistry) (witness w : List F.Elem) :
    Decidable (c.Admits hints witness w) :=
  decidable_of_iff (witness.length = c.witnessLength ∧ w.length = c.wireCount ∧ 1 :: witness <+: w ∧
      ∀ p < c.instructions.length, ∀ op ∈ c.operationAt p, c.Respects hints w op)
    ⟨fun ⟨size, length, inputs, operations⟩ => ⟨size, length, inputs,
        fun p op opAt => operations p (lt_of_operationAt opAt) op opAt⟩,
      fun h => ⟨h.size, h.length, h.inputs, fun p _ op opAt => h.operations p op opAt⟩⟩

instance (w : List F.Elem) (p : ℕ) : (op : Operation) → Decidable (c.LeavesNoChoice w p op)
  | .r1c r => inferInstanceAs (Decidable (_ ∧ ∀ t ∈ r.terms, _ → _))
  | .gate _ | .hint _ => inferInstanceAs (Decidable True)

/-- A wire that is defined has a number, which is its place. -/
theorem exists_defines_iff {i : ℕ} : (∃ p x, c.Defines p x ∧ x.toNat = i) ↔
    (UInt32.ofNat i).toNat = i ∧ ∃ p < c.instructions.length, c.Defines p (UInt32.ofNat i) := by
  constructor
  · rintro ⟨p, x, defines, rfl⟩
    rw [UInt32.ofNat_toNat]
    exact ⟨rfl, p, defines.lt_length, defines⟩
  · rintro ⟨word, p, -, defines⟩
    exact ⟨p, _, defines, word⟩

instance (w : List F.Elem) : Decidable (c.Determines w) :=
  decidable_of_iff ((∀ i < c.wireCount, c.inputCount ≤ i → (UInt32.ofNat i).toNat = i ∧
        ∃ p < c.instructions.length, c.Defines p (UInt32.ofNat i)) ∧ c.ReadsKnown ∧
      ∀ p < c.instructions.length, ∀ op ∈ c.operationAt p, c.LeavesNoChoice w p op)
    ⟨fun ⟨covers, known, single⟩ => ⟨fun i low high => exists_defines_iff.2 (covers i high low),
        known, fun p op opAt => single p (lt_of_operationAt opAt) op opAt⟩,
      fun h => ⟨fun i high low => exists_defines_iff.1 (h.covers i low high), h.known,
        fun p _ op opAt => h.single p op opAt⟩⟩

/-- Without gates an instruction may fill all wires that it touches. -/
theorem WellFormed.fillable_iff (wf : c.WellFormed) (kind : c.kind = .r1cs) {p : ℕ} {x : WireId} :
    x.toNat ∈ c.fillable p ↔ c.Touches p x := by
  refine ⟨touches_of_fillable, fun ⟨op, opAt, mem⟩ => ⟨op, opAt, Solver.mem_places.2 ?_⟩⟩
  cases op with
  | r1c r => exact mem
  | hint call => exact mem
  | gate g =>
    obtain ⟨i, found, decoded⟩ := operationAt_eq_some.1 opAt
    exact absurd decoded (wf.no_gate kind (List.mem_of_getElem? found))

/-- Without gates an instruction solves the wires that it defines. -/
theorem WellFormed.solves_iff_defines (wf : c.WellFormed) (kind : c.kind = .r1cs) {p : ℕ}
    {x : WireId} : c.Solves p x ↔ c.Defines p x := by
  simp only [Solves, Defines, wf.fillable_iff kind]

end Circuit

namespace Solver

variable {level : ℕ → ℕ} {hints : HintRegistry} {s₀ s : State F} {witness w : List F.Elem}

/-! ## The start -/

/-- Unsolved wires can be set from a place on, if there are ids for them. -/
theorem assignFrom_run {place : ℕ} {xs : List F.Elem} (small : place + xs.length ≤ wordRange)
    (unsolved : ∀ i, place ≤ i → i < place + xs.length → s.values[i]? = some none) :
    ∃ s', (assignFrom place xs).run s = .ok () s' := by
  induction xs generalizing place s with
  | nil => exact ⟨s, rfl⟩
  | cons x xs ih =>
    rw [List.length_cons] at small unsolved
    have word : (UInt32.ofNat place).toNat = place := toNat_word (by omega)
    have first : s.values[(UInt32.ofNat place).toNat]? = some none := by
      rw [word]
      exact unsolved place (Nat.le_refl _) (by omega)
    have unsolved' : ∀ i, place + 1 ≤ i → i < place + 1 + xs.length →
        (s.withValue (UInt32.ofNat place) x).values[i]? = some none := by
      intro i low high
      rw [State.withValue, List.getElem?_set_ne (by omega)]
      exact unsolved i (by omega) (by omega)
    obtain ⟨s', rest⟩ := ih (by omega) unsolved'
    refine ⟨s', ?_⟩
    simp only [assignFrom, EStateM.run_bind, run_assign, first]
    exact rest

/-- The inputs can be set if there are ids for them. -/
theorem exists_start (reachable : c.Reachable) (inputs : c.inputCount ≤ wordRange)
    (registered : missingHints c hints = []) (size : witness.length = c.witnessLength) :
    ∃ s, start c hints witness = .ok s := by
  have length := length_inputsOf size fun kind => Circuit.inputCount_pos (reachable.oneName kind)
  have unsolved : ∀ i, 0 ≤ i → i < 0 + (inputsOf c witness).length →
      (State.blank F c.wireCount (rowCount c)).values[i]? = some none := by
    intro i _ high
    rw [State.blank, List.getElem?_replicate_of_lt]
    exact Nat.lt_of_lt_of_le (show i < c.inputCount by omega) (Nat.le_add_right _ _)
  obtain ⟨s, run⟩ := assignFrom_run (by omega) unsolved
  exact ⟨s, start_eq_ok.2 ⟨registered, size, run⟩⟩

/-- At the start the inputs are solved, with the values of the assignment, and no other wires. -/
structure Opened (c : Circuit F) (w : List F.Elem) (s : State F) : Prop where
  begun : Begun c s
  extension : Extends w s
  inputs : ∀ x : WireId, s.Solved x → x.toNat < c.inputCount
  rows : ∀ k < c.constraintCount, s.rows[k]? = some none

theorem start_opened (kind : c.kind = .r1cs) (admits : c.Admits hints witness w)
    (positive : 0 < c.inputCount) (started : start c hints witness = .ok s) : Opened c w s := by
  obtain ⟨size, known, fills⟩ := start_ok started
  have inputs : inputsOf c witness = 1 :: witness := by rw [inputsOf, kind]
  rw [inputs] at known fills
  -- What is solved is one of the inputs, since nothing is solved before they are set.
  have place {i : ℕ} {x : F.Elem} (filled : s.values[i]? = some (some x)) :
      i < (1 :: witness).length := by
    have mem := mem_of_blank fills filled
    exact mem
  refine ⟨start_begun started, fun i x filled => ?_, fun x solved => ?_,
    fun k hk => row_of_start kind started hk⟩
  · have bound := place filled
    have valueAt := known i _ (List.getElem?_eq_getElem bound)
    rw [filled, Option.some.injEq, Option.some.injEq] at valueAt
    rw [valueAt]
    exact List.prefix_iff_getElem?.1 admits.inputs i bound
  · obtain ⟨v, filled⟩ := solved
    have bound := place filled
    rw [List.length_cons, size, Circuit.witnessLength, kind] at bound
    dsimp only at bound
    omega

/-! ## One instruction -/

/-- A state of a run in the order of addition that has found values of the assignment only. -/
structure Following (c : Circuit F) (w : List F.Elem) (s₀ : State F) (n : ℕ) (s : State F) :
    Prop where
  upTo : UpTo c s₀ n s
  extension : Extends w s

variable {n : ℕ}

/-- After `n` instructions the wires are solved that are known before the next one. -/
theorem Following.solved_iff (wf : c.WellFormed) (kind : c.kind = .r1cs) (opened : Opened c w s₀)
    (h : Following c w s₀ n s) {x : WireId} : s.Solved x ↔ c.KnownBefore n x := by
  have inputs : s₀.Solved x ↔ x.toNat < c.inputCount :=
    ⟨opened.inputs x, opened.begun.inputs x⟩
  rw [h.upTo.solved x, inputs, Circuit.KnownBefore]
  simp only [wf.solves_iff_defines kind]

/-- A wire in range has a value or is unsolved. -/
theorem unsolved_of_not_solved {x : WireId} (size : s.values.length = c.wireCount)
    (range : x.toNat < c.wireCount) (h : ¬ s.Solved x) : s.values[x.toNat]? = some none := by
  rw [← size] at range
  exact (State.solved_or_unsolved range).resolve_left h

/-- The unsolved terms of the next constraint are those on the wires that it defines. -/
theorem Following.unsolvedTerms_eq (wf : c.WellFormed) (kind : c.kind = .r1cs)
    (opened : Opened c w s₀) (h : Following c w s₀ n s) {r : R1C}
    (opAt : c.operationAt n = some (.r1c r)) (range : ∀ t ∈ r.terms, c.HasTerm t) :
    unsolvedTerms s r.terms = r.terms.filter fun t => c.Defines n t.wire := by
  refine List.filter_congr fun t ht => ?_
  rw [decide_eq_decide]
  constructor
  · intro unsolved
    by_contra other
    have touches : c.Touches n t.wire := ⟨_, opAt, List.mem_map_of_mem ht⟩
    obtain ⟨v, filled⟩ := (h.solved_iff wf kind opened).2
      (Circuit.knownBefore_of_not_defines touches other)
    rw [filled] at unsolved
    cases unsolved
  · intro defines
    refine unsolved_of_not_solved ?_ (range t ht).2 fun solved => ?_
    · rw [h.upTo.fills.values.1, opened.begun.size]
    · exact Circuit.not_knownBefore defines ((h.solved_iff wf kind opened).1 solved)

/-- The row of the next constraint is empty. -/
theorem Following.row_empty (wf : c.WellFormed) (small : c.instructions.length ≤ wordRange)
    (opened : Opened c w s₀) (h : Following c w s₀ n s) {i : Instruction} {r : R1C}
    (found : c.instructions[n]? = some i) (decoded : c.operationOf i = .ok (.r1c r)) :
    s.rows[i.constraint.toNat]? = some none := by
  have own : i.constraint.toNat ∈ c.ownRow n := ⟨i, r, found, decoded, rfl⟩
  have other : i.constraint.toNat ∉ { k | ∃ p < n, k ∈ c.ownRow p } := by
    rintro ⟨p, lt, own'⟩
    exact absurd (Circuit.ownRow_injective wf small own' own) (Nat.ne_of_lt lt)
  rw [h.upTo.fills.rows.outside other]
  have constraint := (Circuit.readsAs_r1cOf decoded).isConstraint
  obtain ⟨bound, -⟩ := List.getElem?_eq_some_iff.1 found
  have before := c.constraintsBefore_le n
  have number := wf.number_toNat found (by omega)
  rw [number]
  exact opened.rows _ (Circuit.constraintsBefore_lt wf found constraint)

/-- The next instruction ends well and finds values of the assignment. -/
theorem solveInstruction_run (hp : F.IsPrime) (wf : c.WellFormed) (kind : c.kind = .r1cs)
    (leveled : c.Leveled level) (small : c.instructions.length ≤ wordRange)
    (admits : c.Admits hints witness w) (determines : c.Determines w) (opened : Opened c w s₀)
    {index : UInt32} (bound : index.toNat < c.instructions.length)
    (h : Following c w s₀ index.toNat s) :
    ∃ s', (solveInstruction c hints index).run s = .ok () s' ∧
      Following c w s₀ (index.toNat + 1) s' := by
  suffices run : ∃ s', (solveInstruction c hints index).run s = .ok () s' ∧ Extends w s' by
    obtain ⟨s', run, extension'⟩ := run
    exact ⟨s', run, h.upTo.succ hp opened.begun run, extension'⟩
  obtain ⟨i, op, b, words, found, opAt, parts, inRange⟩ := leveled.decoded bound
  have size : s.values.length = c.wireCount := by
    rw [h.upTo.fills.values.1, opened.begun.size]
  rw [solveInstruction_eq found parts]
  cases op with
  | gate g => exact absurd parts.operation (wf.no_gate kind (List.mem_of_getElem? found))
  | r1c r =>
    have holds : (c.rowOn w r).Holds := admits.operations _ _ opAt
    have empty := h.row_empty wf small opened found parts.operation
    have unsolved := h.unsolvedTerms_eq wf kind opened opAt inRange
    obtain ⟨few, follows⟩ := determines.single _ _ opAt
    refine solveR1C_run hp inRange size admits.length h.extension holds (by rwa [unsolved])
      (fun t ht => ?_) empty
    rw [unsolved] at ht
    obtain ⟨mem, defines⟩ := List.mem_filter.1 ht
    exact follows t mem (of_decide_eq_true defines)
  | hint call =>
    obtain ⟨terms, outputs⟩ := inRange
    have one : OneHolds c w := fun _ => by
      obtain ⟨v, filled⟩ := (opened.begun.one kind).of_fills h.upTo.fills
      have first := List.prefix_iff_getElem?.1 admits.inputs 0 (Nat.succ_pos _)
      exact wireOn_eq first
    refine solveHint_run h.extension one (admits.operations _ _ opAt) terms size
      (fun t ht weight => ?_) (fun x hx => ?_) (leveled.once _ call opAt)
    · exact (h.solved_iff wf kind opened).2 (determines.known.hint opAt t ht weight)
    · refine unsolved_of_not_solved size (outputs x hx) fun solved => ?_
      exact Circuit.not_knownBefore (leveled.outputs _ call x opAt hx)
        ((h.solved_iff wf kind opened).1 solved)

/-! ## A whole run -/

/-- The first instructions end well and find values of the assignment. -/
theorem runInOrder_run (hp : F.IsPrime) (wf : c.WellFormed) (kind : c.kind = .r1cs)
    (leveled : c.Leveled level) (small : c.instructions.length ≤ wordRange)
    (admits : c.Admits hints witness w) (determines : c.Determines w) (opened : Opened c w s₀)
    (bound : n ≤ c.instructions.length) :
    ∃ s, (runInstructions c hints ((List.range n).map UInt32.ofNat)).run s₀ = .ok () s ∧
      Following c w s₀ n s := by
  induction n with
  | zero => exact ⟨s₀, rfl, .zero s₀, opened.extension⟩
  | succ n ih =>
    obtain ⟨s, before, following⟩ := ih (by omega)
    have word : (UInt32.ofNat n).toNat = n := toNat_word (by omega)
    rw [← word] at following
    obtain ⟨s', run, following'⟩ := solveInstruction_run hp wf kind leveled
      small admits determines opened (by omega) following
    rw [word] at following'
    refine ⟨s', ?_, following'⟩
    rw [List.range_succ, List.map_append, runInstructions_append, EStateM.run_bind, before]
    simp only [List.map_cons, List.map_nil, runInstructions, EStateM.run_bind, run]
    rfl

/-- After the last instruction all wires are solved. -/
theorem Following.values_eq (wf : c.WellFormed) (kind : c.kind = .r1cs)
    (inputs : c.inputCount ≤ wordRange) (admits : c.Admits hints witness w)
    (determines : c.Determines w) (opened : Opened c w s₀)
    (h : Following c w s₀ c.instructions.length s) : s.values = w.map some := by
  have size : s.values.length = c.wireCount := by
    rw [h.upTo.fills.values.1, opened.begun.size]
  have filled (i : ℕ) (hi : i < c.wireCount) : ∃ v, s.values[i]? = some (some v) := by
    by_cases input : i < c.inputCount
    · have word : (UInt32.ofNat i).toNat = i := toNat_word (by omega)
      have solved := (h.solved_iff wf kind opened (x := UInt32.ofNat i)).2 (.inl (by rwa [word]))
      rwa [State.Solved, word] at solved
    · obtain ⟨p, x, defines, rfl⟩ := determines.covers i (by omega) hi
      exact (h.solved_iff wf kind opened).2 (.inr ⟨p, defines.lt_length, defines⟩)
  obtain ⟨xs, values⟩ := exists_map_some fun i hi => filled i (size ▸ hi)
  have same : xs = w := by
    refine List.ext_getElem? fun i => ?_
    by_cases hi : i < c.wireCount
    · obtain ⟨v, valueAt⟩ := filled i hi
      rw [h.extension i v valueAt]
      rw [values, List.getElem?_map] at valueAt
      simpa using valueAt
    · have length : xs.length = c.wireCount := by rw [← size, values, List.length_map]
      rw [List.getElem?_eq_none (by omega), List.getElem?_eq_none (by rw [admits.length]; omega)]
  rw [values, same]

/-- If a circuit of rank-one constraints admits an assignment and leaves no choice for it, solving
    finds this assignment, whatever the workers do. Inputs and instructions are numbered by words,
    so there are no more of them than words. -/
theorem solve_complete (hp : F.IsPrime) (built : c.Built) (kind : c.kind = .r1cs)
    (small : c.instructions.length ≤ wordRange) (inputs : c.inputCount ≤ wordRange)
    {config : SolverConfig} (registered : missingHints c config.hints = [])
    (admits : c.Admits config.hints witness w) (determines : c.Determines w) :
    (∃ sol, solve c config witness = .ok (.r1cs sol) ∧ sol.w = w) ∧
      ∀ out, MayReturn c config witness out → ∃ sol, out = .ok (.r1cs sol) ∧ sol.w = w := by
  have wf := built.reachable.wellFormed
  obtain ⟨level, leveled⟩ := built.leveled small
  obtain ⟨s₀, started⟩ := exists_start built.reachable inputs registered admits.size
  have positive := Circuit.inputCount_pos (built.reachable.oneName kind)
  have opened := start_opened kind admits positive started
  obtain ⟨s, run, following⟩ := runInOrder_run hp wf kind leveled small admits determines opened
    (Nat.le_refl _)
  have values := following.values_eq wf kind inputs admits determines opened
  obtain ⟨sol, -, found, alone⟩ := solve_alone_of_run hp built kind small started run values
  have each (out : Except (Error F) (Solution F)) (h : MayReturn c config witness out) :
      ∃ sol, out = .ok (.r1cs sol) ∧ sol.w = w := by
    have sameHints : config.hints = (config.withWorkers 1).hints := rfl
    have same := mayReturn_gist hp built small determines.known sameHints
      (solve_mayReturn c (config.withWorkers 1) witness) h
    rw [alone] at same
    cases out with
    | error e => cases same
    | ok sol' =>
      obtain rfl := Except.ok.inj same
      exact ⟨sol, rfl, found⟩
  exact ⟨each _ (solve_mayReturn c config witness), each⟩

/-- The inverse `y` of `x`, a hint for its last bit `z`, and the constraint `x⋅(2v + z) = y`. -/
def quotientCircuit : Circuit .tiny :=
  [.secretInput "x", .internal, .internal, .internal, .blueprint .genericR1C,
    .blueprint .genericHint, .r1c ⟨[⟨1, 2⟩], [⟨1, 1⟩], [⟨1, 0⟩]⟩ 0,
    .hint ⟨hintId "bits", [[⟨1, 2⟩]], [3]⟩ "bits" 1,
    .r1c ⟨[⟨1, 1⟩], [⟨2, 4⟩, ⟨1, 3⟩], [⟨1, 2⟩]⟩ 0].foldl Edit.apply (.empty .tiny .r1cs)

/-- An assignment for `x = 5`. -/
def quotients : List (PrimeField.Elem .tiny) := [1, .ofNat 5, .ofNat 19, 1, .ofNat 39]

theorem solve_quotientCircuit :
    (∃ sol, solve quotientCircuit twoWorkers [.ofNat 5] = .ok (.r1cs sol) ∧ sol.w = quotients) ∧
      ∀ out, MayReturn quotientCircuit twoWorkers [.ofNat 5] out →
        ∃ sol, out = .ok (.r1cs sol) ∧ sol.w = quotients := by
  have built : quotientCircuit.Built := .edits (.empty .r1cs) (by simp [Edit.isAutomatic])
  have facts : (quotientCircuit.kind = .r1cs ∧ quotientCircuit.instructions.length ≤ wordRange ∧
      quotientCircuit.inputCount ≤ wordRange ∧
      missingHints quotientCircuit twoWorkers.hints = []) ∧
      (quotientCircuit.Admits twoWorkers.hints [.ofNat 5] quotients) ∧
      quotientCircuit.Determines quotients := by
    decide +kernel
  obtain ⟨⟨kind, small, inputs, registered⟩, admits, determines⟩ := facts
  exact solve_complete PrimeField.isPrime_tiny built kind small inputs registered admits determines

end Solver

end CircuitWitness
