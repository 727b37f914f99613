import CircuitWitness.Proofs.Circuit.Operations
import CircuitWitness.Proofs.Solver.ClosedForm
import CircuitWitness.Proofs.Solver.Hint
import CircuitWitness.Proofs.Solver.Partition
import CircuitWitness.Proofs.Solver.RankOne
import CircuitWitness.Solver.Run

/-!
# Runs that end well

A run that ends well has run each instruction of its levels, and each of them ended well. What an
instruction left in the state stays there to the end of the run, and a row is filled only by the
instruction that stands for its constraint.

Results:
* `solveInstruction_cases`: what running an instruction comes to.
* `solveInstruction_ok`: an instruction that ended well was decoded, and its operation ended well.
* `runInstructions_ok`, `runTasks_ok`, `runLevels_ok`: a run makes progress by all instructions of
  its list, its tasks or its levels.
* `runInstructions_error`: the instruction at which a run fails.
-/

namespace CircuitWitness

variable {F : PrimeField}

namespace Solver

variable {c : Circuit F} {hints : HintRegistry} {s s' s'' : State F}

/-- Solves or checks a decoded operation. -/
def solveOperation (c : Circuit F) (hints : HintRegistry) (constraint : UInt32) (b : Blueprint)
    (words : CallData) : Operation → Solve F Unit
  | .r1c r => solveR1C c constraint r
  | .gate g => solvePackedGate c constraint b words g
  | .hint h => solveHint c hints h

theorem solveInstruction_eq {index : UInt32} {i : Instruction} {b : Blueprint} {words : CallData}
    {op : Operation} (found : c.instructions[index.toNat]? = some i)
    (h : c.Decoded i b words op) :
    solveInstruction c hints index = solveOperation c hints i.constraint b words op := by
  simp only [solveInstruction, found, h.blueprint, h.words, h.operation, orFatal, pure_bind]
  cases op <;> rfl

/-- The rows that an operation may fill. -/
def rowsOf (constraint : UInt32) : Operation → Set ℕ
  | .r1c _ => { constraint.toNat }
  | .gate _ | .hint _ => ∅

theorem Writes.solveOperation (c : Circuit F) (hints : HintRegistry) {i : Instruction}
    {b : Blueprint} {words : CallData} {op : Operation} (h : c.Decoded i b words op) :
    Writes (places op.defines) (rowsOf i.constraint op)
      (solveOperation c hints i.constraint b words op) := by
  cases op with
  | r1c r => exact .solveR1C c i.constraint r
  | gate g => exact .solvePackedGate c i.constraint h.read.2
  | hint call => exact .solveHint c hints call

/-- An instruction that cannot be decoded does nothing but to fail with a fault; each other one runs
    its operation. -/
theorem solveInstruction_cases (c : Circuit F) (hints : HintRegistry) (index : UInt32) :
    (c.operationAt index.toNat = none ∧ ∃ fault, solveInstruction c hints index = fail fault) ∨
    ∃ i b words op, c.instructions[index.toNat]? = some i ∧ c.Decoded i b words op ∧
      solveInstruction c hints index = solveOperation c hints i.constraint b words op := by
  cases found : c.instructions[index.toNat]? with
  | none =>
    refine .inl ⟨by simp [Circuit.operationAt, found], .malformed index .unknownIndex, ?_⟩
    simp only [solveInstruction, found]
  | some i =>
    cases decoded : c.operationOf i with
    | ok op =>
      obtain ⟨b, words, parts⟩ := Circuit.Decoded.of_operationOf decoded
      exact .inr ⟨i, b, words, op, rfl, parts, solveInstruction_eq found parts⟩
    | error e =>
      refine .inl ⟨by simp [Circuit.operationAt, found, decoded, Except.toOption], ?_⟩
      simp only [solveInstruction, found, decoded]
      cases c.blueprintAt i.blueprint with
      | error e' => exact ⟨.ofCircuit index e', rfl⟩
      | ok b =>
        cases c.callDataOf i with
        | error e' => exact ⟨.ofCircuit index e', rfl⟩
        | ok words => exact ⟨.ofCircuit index e, rfl⟩

/-- An instruction that ended well was decoded, and its operation ended well. -/
theorem solveInstruction_ok {index : UInt32} {u : Unit}
    (h : (solveInstruction c hints index).run s = .ok u s') :
    ∃ i b words op, c.instructions[index.toNat]? = some i ∧ c.Decoded i b words op ∧
      (solveOperation c hints i.constraint b words op).run s = .ok u s' := by
  obtain ⟨-, fault, eq⟩ | ⟨i, b, words, op, found, parts, eq⟩ :=
    solveInstruction_cases c hints index
  · rw [eq, run_fail] at h
    cases h
  · exact ⟨i, b, words, op, found, parts, eq ▸ h⟩

/-! ## Progress -/

/-- What a run that ended well, by the given instructions, tells of its last state. -/
structure Progress (c : Circuit F) (hints : HintRegistry) (done : List UInt32)
    (s s' : State F) : Prop where
  fills : Fills .univ .univ s s'
  ran : ∀ index ∈ done, ∃ s₀ s₁, (solveInstruction c hints index).run s₀ = .ok () s₁ ∧
    Fills .univ .univ s₁ s'
  rows : ∀ (k : ℕ) (row : Row F), s'.rows[k]? = some (some row) →
    s.rows[k]? = some (some row) ∨ ∃ index ∈ done, ∃ i r,
      c.instructions[index.toNat]? = some i ∧ c.operationOf i = .ok (.r1c r) ∧
      i.constraint.toNat = k

theorem Progress.refl (s : State F) : Progress c hints [] s s :=
  ⟨.refl _ _ s, by simp, fun _ _ h => .inl h⟩

theorem Progress.append {done done' : List UInt32} (h : Progress c hints done s s')
    (h' : Progress c hints done' s' s'') : Progress c hints (done ++ done') s s'' := by
  refine ⟨h.fills.trans h'.fills, fun index mem => ?_, fun k row filled => ?_⟩
  · rcases List.mem_append.1 mem with mem | mem
    · obtain ⟨s₀, s₁, run, later⟩ := h.ran index mem
      exact ⟨s₀, s₁, run, later.trans h'.fills⟩
    · exact h'.ran index mem
  · obtain before | ⟨index, mem, rest⟩ := h'.rows k row filled
    · refine (h.rows k row before).imp_right ?_
      rintro ⟨index, mem, rest⟩
      exact ⟨index, List.mem_append_left _ mem, rest⟩
    · exact .inr ⟨index, List.mem_append_right _ mem, rest⟩

theorem Progress.single {index : UInt32}
    (run : (solveInstruction c hints index).run s = .ok () s') :
    Progress c hints [index] s s' := by
  obtain ⟨i, b, words, op, found, decoded, ended⟩ := solveInstruction_ok run
  have fills := (Writes.solveOperation c hints decoded).ok ended
  refine ⟨fills.mono (Set.subset_univ _) (Set.subset_univ _), ?_, fun k row filled => ?_⟩
  · rintro _ (_ | _)
    · exact ⟨s, s', run, .refl _ _ s'⟩
    · contradiction
  · obtain same | ⟨mem, -⟩ := fills.rows.2 k
    · exact .inl (same ▸ filled)
    · cases op with
      | r1c r => exact .inr ⟨index, by simp, i, r, found, decoded.operation, mem.symm⟩
      | gate g => exact absurd mem (Set.notMem_empty k)
      | hint call => exact absurd mem (Set.notMem_empty k)

/-! ## Lists, tasks and levels -/

theorem runInstructions_ok {l : List UInt32} {u : Unit}
    (h : (runInstructions c hints l).run s = .ok u s') : Progress c hints l s s' := by
  induction l generalizing s with
  | nil =>
    obtain ⟨-, rfl⟩ := pure_ok.1 h
    exact .refl _
  | cons index l ih =>
    obtain ⟨_, s₁, first, rest⟩ := bind_ok.1 h
    exact (Progress.single first).append (ih rest)

/-- A run that fails does so at one of its instructions, those before it having ended well. -/
theorem runInstructions_error {l : List UInt32} {e : Error F}
    (h : (runInstructions c hints l).run s = .error e s') :
    ∃ done index rest t, l = done ++ index :: rest ∧
      (runInstructions c hints done).run s = .ok () t ∧
      (solveInstruction c hints index).run t = .error e s' := by
  induction l generalizing s with
  | nil => cases h
  | cons index l ih =>
    obtain here | ⟨_, s₁, first, later⟩ := bind_error.1 h
    · exact ⟨[], index, l, s, rfl, rfl, here⟩
    · obtain ⟨done, index', rest, t, rfl, ran, last⟩ := ih later
      refine ⟨index :: done, index', rest, t, rfl, ?_, last⟩
      exact bind_ok.2 ⟨_, s₁, first, ran⟩

theorem runInstructions_append (l l' : List UInt32) :
    runInstructions c hints (l ++ l')
      = runInstructions c hints l >>= fun _ => runInstructions c hints l' := by
  induction l with
  | nil => simp [runInstructions]
  | cons index l ih => simp only [List.cons_append, runInstructions, ih, bind_assoc]

theorem runTasks_ok {tasks : List (List UInt32)} {u : Unit}
    (h : (runTasks c hints tasks).run s = .ok u s') : Progress c hints tasks.flatten s s' := by
  induction tasks generalizing s with
  | nil =>
    obtain ⟨-, rfl⟩ := pure_ok.1 h
    exact .refl _
  | cons task rest ih =>
    simp only [runTasks, EStateM.run] at h
    split at h
    · next s₁ first => exact (runInstructions_ok first).append (ih h)
    · split at h <;> cases h

theorem runLevel_ok {config : SolverConfig} {number : ℕ} {level : List UInt32} {u : Unit}
    (h : (runLevel c config number level).run s = .ok u s') :
    Progress c config.hints level s s' := by
  unfold runLevel at h
  split at h
  · obtain ⟨_, s₁, noted, tasks⟩ := bind_ok.1 h
    have progress := runTasks_ok tasks
    rw [flatten_slices] at progress
    obtain rfl := modify_ok.1 noted
    exact ⟨⟨progress.fills.values, progress.fills.rows, progress.fills.counted⟩, progress.ran,
      progress.rows⟩
  · exact runInstructions_ok h

/-- A run makes progress by all instructions of its levels. -/
theorem runLevels_ok {config : SolverConfig} {number : ℕ} {levels : List (List UInt32)} {u : Unit}
    (h : (runLevels c config number levels).run s = .ok u s') :
    Progress c config.hints levels.flatten s s' := by
  induction levels generalizing s number with
  | nil =>
    obtain ⟨-, rfl⟩ := pure_ok.1 h
    exact .refl _
  | cons level rest ih =>
    obtain ⟨_, s₁, first, others⟩ := bind_ok.1 h
    exact (runLevel_ok first).append (ih others)

end Solver

end CircuitWitness
