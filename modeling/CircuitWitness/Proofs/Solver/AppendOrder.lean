import CircuitWitness.Proofs.Field.Ring
import CircuitWitness.Proofs.Solver.Completion
import CircuitWitness.Proofs.Solver.Reordering

/-!
# Levels and the order of addition

A circuit levels its instructions as they are added, so that each level can be solved after those
below it. The instruction that it notes for a wire is the first that touches the wire. That is the
one that solves it, except where a gate that asserts a committed value comes first: the solver
passes over this gate, and a later one solves the wire. Then a reader of the wire may stand below
the instruction that solves it. Circuits of rank-one constraints have no such gates.

Results:
* `order_kept`: apart from such wires, what solves a wire stands before all that look at it.
* `solve_of_inOrder`: what is found in the order of addition is found level by level.
* `solve_r1cs_of_inOrder`: so are the solutions of circuits of rank-one constraints, without
  exception.
* `solve_chainCircuit`: what can be found in the order of addition may be missed level by level.
-/

namespace CircuitWitness

variable {F : PrimeField}

namespace Circuit

variable (c : Circuit F)

/-- An instruction stands before another in the schedule. -/
def StandsBefore (p q : ℕ) : Prop :=
  [UInt32.ofNat p, UInt32.ofNat q].Sublist c.levels.schedule.flatten

/-- Where a gate that asserts a committed value is the first to touch a wire, the instruction that
    solves the wire still stands before all later ones that look at it. -/
def KeepsAsserted : Prop := ∀ a g, c.operationAt a = some (.gate g) → g.commitment = .asserts →
  ∀ x, c.Defines a x → ∀ p q, c.Solves p x → p < q → x.toNat ∈ c.lookedAt q → c.StandsBefore p q

variable {c}

/-- If what is asserted was known before, no such gate is the first to touch a wire. -/
theorem ReadsKnown.keepsAsserted (h : c.ReadsKnown) : c.KeepsAsserted := by
  intro a g opAt asserts x defines
  obtain ⟨op, opAt', mem⟩ := defines.2.1
  obtain rfl := Option.some.inj (opAt.symm.trans opAt')
  exact absurd (h.asserts opAt asserts x mem) (not_knownBefore defines)

/-- Rank-one constraints assert no committed values. -/
theorem WellFormed.keepsAsserted (wf : c.WellFormed) (kind : c.kind = .r1cs) : c.KeepsAsserted := by
  intro a g opAt
  obtain ⟨i, found, decoded⟩ := operationAt_eq_some.1 opAt
  exact absurd decoded (wf.no_gate kind (List.mem_of_getElem? found))

end Circuit

namespace Solver

variable {c : Circuit F} {level : ℕ → ℕ} {s₀ s' t : State F}

/-! ## The schedule -/

/-- In a list without repetitions two entries stand in one order only. -/
theorem eq_of_sublist_sublist {α : Type} {l : List α} {a b : α} (nodup : l.Nodup)
    (h : [a, b].Sublist l) (h' : [b, a].Sublist l) : a = b := by
  induction l with
  | nil => cases h
  | cons x l ih =>
    obtain ⟨absent, nodup⟩ := List.nodup_cons.1 nodup
    cases h with
    | cons _ h =>
      cases h' with
      | cons _ h' => exact ih nodup h h'
      | cons_cons _ h' => exact absurd (h.subset (by simp)) absent
    | cons_cons _ h =>
      cases h' with
      | cons _ h' => exact absurd (h'.subset (by simp)) absent
      | cons_cons _ h' => rfl

/-- What solves a wire stands before all that look at it. -/
theorem order_kept (leveled : c.Leveled level) (small : c.instructions.length ≤ wordRange)
    (kept : c.KeepsAsserted) :
    c.levels.schedule.flatten.Pairwise fun q p => ¬ c.Precedes p.toNat q.toNat := by
  have sorted := schedule_pairwise small leveled.scheduled
  have nodup : c.levels.schedule.flatten.Nodup := sorted.imp And.right
  rw [List.pairwise_iff_forall_sublist] at sorted ⊢
  rintro q p stands ⟨lt, x, look, solves⟩
  obtain ⟨below, other⟩ := sorted stands
  obtain ⟨a, le, defines⟩ :=
    Circuit.exists_defines solves.1 (Circuit.touches_of_fillable solves.2.1)
  obtain ⟨op, opAt, touched⟩ := defines.2.1
  by_cases fill : x.toNat ∈ c.fillable a
  · -- The first to touch the wire may fill it, so it is the one that solves it.
    have same : a = p.toNat := by
      by_contra apart
      exact solves.2.2 a (by omega) fill
    subst same
    have above := level_lt_of_later leveled lt look defines
    omega
  · have asserting : ∃ g, op = .gate g ∧ g.commitment = .asserts := by
      rw [Circuit.fillable_eq opAt, mem_places] at fill
      cases op with
      | r1c r => exact absurd touched fill
      | hint call => exact absurd touched fill
      | gate g =>
        refine ⟨g, rfl, ?_⟩
        by_contra plain
        rw [Operation.settles, if_neg plain] at fill
        exact fill touched
    obtain ⟨g, rfl, asserts⟩ := asserting
    have before := kept a g opAt asserts x defines _ _ solves lt look
    rw [Circuit.StandsBefore, UInt32.ofNat_toNat, UInt32.ofNat_toNat] at before
    exact other (eq_of_sublist_sublist nodup stands before)

/-- A single worker takes the instructions in the order of the schedule. -/
theorem runLevels_alone {config : SolverConfig} (alone : config.workerCount ≤ 1) (number : ℕ)
    (levels : List (List UInt32)) :
    runLevels c config number levels = runInstructions c config.hints levels.flatten := by
  have unsplit (indices : List UInt32) : isSplit config indices = false := by
    rw [isSplit, decide_eq_false (by omega), Bool.false_and]
  induction levels generalizing number with
  | nil => rfl
  | cons indices rest ih =>
    rw [runLevels, runLevel, unsplit, if_neg Bool.false_ne_true, ih, List.flatten_cons,
      runInstructions_append]

/-- If the instructions can run as they were added, they can run level by level, and come to a
    state that agrees. -/
theorem runLevels_of_inOrder (hp : F.IsPrime) (built : c.Built)
    (small : c.instructions.length ≤ wordRange) (kept : c.KeepsAsserted) {config : SolverConfig}
    (alone : config.workerCount ≤ 1) (begun : Begun c s₀) {u : Unit}
    (run : (runInstructions c config.hints c.inOrder).run s₀ = .ok u s') :
    ∃ t, (runLevels c config 0 c.levels.schedule).run s₀ = .ok () t ∧ Agree .univ .univ s' t := by
  obtain ⟨level, leveled⟩ := built.leveled small
  rw [runLevels_alone alone]
  refine reordered_ok hp built.reachable.wellFormed leveled small begun run
    (fun index => mem_schedule small leveled.scheduled) ?_ (order_kept leveled small kept)
  exact (schedule_pairwise small leveled.scheduled).imp And.right

/-! ## Attempts -/

/-- The values that are found when the instructions run one by one as they were added. -/
def valuesInOrder (c : Circuit F) (hints : HintRegistry) (witness : List F.Elem) :
    Except (Error F) (List (Option F.Elem)) :=
  match start c hints witness with
  | .error e => .error e
  | .ok s =>
    match (runInstructions c hints c.inOrder).run s with
    | .ok _ s' => .ok s'.values
    | .error e _ => .error e

theorem valuesInOrder_ok {hints : HintRegistry} {witness : List F.Elem}
    {values : List (Option F.Elem)} (h : valuesInOrder c hints witness = .ok values) :
    ∃ s s', start c hints witness = .ok s ∧
      (runInstructions c hints c.inOrder).run s = .ok () s' ∧ s'.values = values := by
  unfold valuesInOrder at h
  split at h
  · cases h
  · next s begun =>
    split at h
    · next s' run => exact ⟨s, s', begun, run, Except.ok.inj h⟩
    · cases h

/-- If a circuit of gates can be solved in the order in which its instructions were added, a single
    worker finds the same values level by level. -/
theorem solve_of_inOrder (hp : F.IsPrime) (built : c.Built) (kind : c.kind = .sparse)
    (small : c.instructions.length ≤ wordRange) (kept : c.KeepsAsserted) {config : SolverConfig}
    {witness w : List F.Elem} (h : valuesInOrder c config.hints witness = .ok (w.map some)) :
    ∃ sol, solve c (config.withWorkers 1) witness = .ok (.sparse sol) ∧ sol.w = w := by
  obtain ⟨s, s', started, run, values⟩ := valuesInOrder_ok h
  have begun := start_begun started
  have hints : (config.withWorkers 1).hints = config.hints := rfl
  have alone : (config.withWorkers 1).workerCount ≤ 1 := Nat.le_refl 1
  rw [← hints] at run started
  obtain ⟨t, levels, agree⟩ := runLevels_of_inOrder hp built small kept alone begun run
  have same : t.values = w.map some := by
    rw [← values]
    exact List.ext_getElem? fun i => (agree.values i (Set.mem_univ i)).symm
  have counted : t.Counted := by
    rw [runLevels_alone alone] at levels
    exact (runInstructions_ok levels).fills.counted begun.counted
  obtain ⟨level, leveled⟩ := built.leveled small
  obtain ⟨gs, gates⟩ := built.reachable.wellFormed.exists_gates kind fun i hi => by
    obtain ⟨p, bound, rfl⟩ := List.getElem_of_mem hi
    obtain ⟨j, op, b, words, found, -, parts, -⟩ := leveled.decoded bound
    rw [List.getElem?_eq_getElem bound] at found
    exact ⟨op, Option.some.inj found ▸ parts.operation⟩
  refine ⟨.ofAssignment w c.publicNames.length gs, ?_, rfl⟩
  simp only [solve, attempt, started, levels, solution, assignment_of_values counted same, kind,
    gates]
  rfl

/-- No hints. -/
def noHints : SolverConfig := ⟨.empty, none, 50, true⟩

/-- The gate `x - y = 0`, which copies the value of a wire. -/
def copyGate (x y : WireId) : Gate := ⟨x, 0, y, CoeffId.one, 0, CoeffId.minusOne, 0, 0, .plain⟩

/-- A gate that asserts that the value of a wire is committed to. -/
def committedGate (x : WireId) : Gate := ⟨x, 0, 0, CoeffId.one, 0, 0, 0, 0, .asserts⟩

/-- Two copies of `x`, the first of which is committed to once it is solved. -/
def committedCircuit : Circuit .tiny :=
  [.secretInput "x", .internal, .internal, .blueprint .genericGate, .gate (copyGate 0 1) 0,
    .gate (committedGate 1) 0, .gate (copyGate 1 2) 0].foldl Edit.apply (.empty .tiny .sparse)

theorem solve_committedCircuit :
    ∃ sol, solve committedCircuit (noHints.withWorkers 1) [.ofNat 5] = .ok (.sparse sol) ∧
      sol.w = [.ofNat 5, .ofNat 5, .ofNat 5] := by
  have built : committedCircuit.Built := .edits (.empty .sparse) (by simp [Edit.isAutomatic])
  have facts : committedCircuit.kind = .sparse ∧
      committedCircuit.instructions.length ≤ wordRange ∧ committedCircuit.ReadsKnown ∧
      valuesInOrder committedCircuit noHints.hints [.ofNat 5]
        = .ok ([.ofNat 5, .ofNat 5, .ofNat 5].map some) := by
    decide +kernel
  obtain ⟨kind, small, known, values⟩ := facts
  exact solve_of_inOrder PrimeField.isPrime_tiny built kind small known.keepsAsserted values

/-- A chain of four copies of `x`, the third of which is committed to before it is solved. -/
def chainCircuit : Circuit .tiny :=
  [.secretInput "x", .internal, .internal, .internal, .internal, .blueprint .genericGate,
    .gate (committedGate 3) 0, .gate (copyGate 0 1) 0, .gate (copyGate 1 2) 0,
    .gate (copyGate 2 3) 0, .gate (copyGate 3 4) 0].foldl Edit.apply (.empty .tiny .sparse)

/-- The wire that is committed to is noted for the gate that the solver passes over. So its last
    reader stands below the gate that solves it, and finds two unsolved wires. -/
theorem solve_chainCircuit :
    chainCircuit.Built ∧ chainCircuit.kind = .sparse ∧
      chainCircuit.levels.schedule = [[0, 1], [2, 4], [3]] ∧
      valuesInOrder chainCircuit noHints.hints [.ofNat 5]
        = .ok ([.ofNat 5, .ofNat 5, .ofNat 5, .ofNat 5, .ofNat 5].map some) ∧
      solve chainCircuit (noHints.withWorkers 1) [.ofNat 5]
        = .error (.fatal (.multipleUnsolved 4)) := by
  refine ⟨.edits (.empty .sparse) (by simp [Edit.isAutomatic]), ?_⟩
  decide +kernel

/-! ## Rank-one constraints -/

/-- The state that is reached when the instructions run one by one as they were added. -/
def stateInOrder (c : Circuit F) (hints : HintRegistry) (witness : List F.Elem) :
    Except (Error F) (State F) := do
  let s ← start c hints witness
  match (runInstructions c hints c.inOrder).run s with
  | .ok _ s' => .ok s'
  | .error e _ => .error e

theorem stateInOrder_ok {hints : HintRegistry} {witness : List F.Elem} {s' : State F}
    (h : stateInOrder c hints witness = .ok s') : ∃ s, start c hints witness = .ok s ∧
      (runInstructions c hints c.inOrder).run s = .ok () s' := by
  obtain ⟨s, started, h⟩ := except_bind_ok.1 h
  split at h
  · next run =>
    obtain rfl := Except.ok.inj h
    exact ⟨s, started, run⟩
  · cases h

theorem mem_inOrder {index : UInt32} (bound : index.toNat < c.instructions.length) :
    index ∈ c.inOrder :=
  List.mem_map.2 ⟨index.toNat, List.mem_range.2 bound, UInt32.ofNat_toNat⟩

/-- If the instructions of a circuit of rank-one constraints run well as they were added and solve
    all wires, a single worker finds the same solution level by level. -/
theorem solve_alone_of_run (hp : F.IsPrime) (built : c.Built) (kind : c.kind = .r1cs)
    (small : c.instructions.length ≤ wordRange) {config : SolverConfig}
    {witness w : List F.Elem} {s : State F} (started : start c config.hints witness = .ok s)
    (run : (runInstructions c config.hints c.inOrder).run s = .ok () s')
    (solved : s'.values = w.map some) :
    ∃ sol, solution c s' = .ok (.r1cs sol) ∧ sol.w = w ∧
      solve c (config.withWorkers 1) witness = .ok (.r1cs sol) := by
  have wf := built.reachable.wellFormed
  have begun := start_begun started
  have progress := runInstructions_ok run
  have counted := progress.fills.counted begun.counted
  obtain ⟨rows, filled⟩ := progress.rows_of_start hp wf kind small started fun _ => mem_inOrder
  have found := solution_r1cs kind counted solved filled
  refine ⟨_, found, rfl, ?_⟩
  have alone : (config.withWorkers 1).workerCount ≤ 1 := Nat.le_refl 1
  obtain ⟨t, levels, agree⟩ := runLevels_of_inOrder hp built small
    (wf.keepsAsserted kind) alone begun run
  have counted' := (runLevels_ok levels).fills.counted begun.counted
  rw [solution_congr agree counted counted'] at found
  have started' : start c (config.withWorkers 1).hints witness = .ok s := started
  simp only [solve, attempt, started', levels, found]
  rfl

/-- If a circuit of rank-one constraints can be solved in the order in which its instructions were
    added, a single worker that goes level by level finds the same solution. -/
theorem solve_r1cs_of_inOrder (hp : F.IsPrime) (built : c.Built) (kind : c.kind = .r1cs)
    (small : c.instructions.length ≤ wordRange) {config : SolverConfig}
    {witness w : List F.Elem} {s' : State F}
    (h : stateInOrder c config.hints witness = .ok s') (solved : s'.values = w.map some) :
    ∃ sol, solution c s' = .ok (.r1cs sol) ∧ sol.w = w ∧
      solve c (config.withWorkers 1) witness = .ok (.r1cs sol) := by
  obtain ⟨s, started, run⟩ := stateInOrder_ok h
  exact solve_alone_of_run hp built kind small started run solved

/-- The powers `y = x⋅x` and `z = y⋅x`, a hint for the last bit of `x` that mentions the last wire
    with the coefficient zero, and the constraint that sets that wire to the product of this bit
    and `z`. -/
def powersCircuit : Circuit .tiny :=
  [.secretInput "x", .internal, .internal, .internal, .internal, .blueprint .genericR1C,
    .blueprint .genericHint, .r1c ⟨[⟨1, 1⟩], [⟨1, 1⟩], [⟨1, 2⟩]⟩ 0,
    .r1c ⟨[⟨1, 2⟩], [⟨1, 1⟩], [⟨1, 3⟩]⟩ 0,
    .hint ⟨hintId "bits", [[⟨1, 1⟩, ⟨0, 5⟩]], [4]⟩ "bits" 1,
    .r1c ⟨[⟨1, 4⟩], [⟨1, 3⟩], [⟨1, 5⟩]⟩ 0].foldl Edit.apply (.empty .tiny .r1cs)

/-- The hint runs before the second constraint, after which it was added. -/
theorem solve_powersCircuit :
    powersCircuit.levels.schedule = [[0, 2], [1], [3]] ∧
      ∃ sol, solve powersCircuit (twoWorkers.withWorkers 1) [.ofNat 5] = .ok (.r1cs sol) ∧
        sol.w = [1, .ofNat 5, .ofNat 25, .ofNat 31, 1, .ofNat 31] := by
  have built : powersCircuit.Built := .edits (.empty .r1cs) (by simp [Edit.isAutomatic])
  have facts : (powersCircuit.kind = .r1cs ∧ powersCircuit.instructions.length ≤ wordRange) ∧
      powersCircuit.levels.schedule = [[0, 2], [1], [3]] ∧
      (stateInOrder powersCircuit twoWorkers.hints [.ofNat 5]).map State.values
        = .ok ([1, .ofNat 5, .ofNat 25, .ofNat 31, 1, .ofNat 31].map some) := by
    decide +kernel
  obtain ⟨⟨kind, small⟩, schedule, values⟩ := facts
  cases ran : stateInOrder powersCircuit twoWorkers.hints [.ofNat 5] with
  | error e =>
    rw [ran] at values
    cases values
  | ok s' =>
    rw [ran] at values
    obtain ⟨sol, -, same, solved⟩ := solve_r1cs_of_inOrder
      PrimeField.isPrime_tiny built kind small ran (Except.ok.inj values)
    exact ⟨schedule, sol, solved, same⟩

end Solver

end CircuitWitness
