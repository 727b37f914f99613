import CircuitWitness.Proofs.Solver.Attempts
import Mathlib.Logic.Relation

/-!
# Interleaved tasks

The tasks of a level share one state. Each runs its own list in order and stops at its own first
failure; which of them takes the next step is not determined. When all have ended the level has
failed with the failure of the first task that has one. The next level starts after that.

Results:
* `Kept.levelsRun`: what each instruction keeps, every run keeps, in every way.
* `solve_mayReturn`: running the tasks one after the other is one of the ways.
* `mayReturn_ok`: in every way, a solution is that of a run that made progress by all levels.
-/

namespace CircuitWitness.Solver

variable {F : PrimeField}

/-! ## Tasks -/

/-- A task: the instructions that it has still to run, or its failure. -/
inductive Task (F : PrimeField) where
  | running (rest : List UInt32)
  | failed (e : Error F)

/-- Whether a task has nothing left to do. -/
def Task.HasEnded : Task F → Prop
  | .running rest => rest = []
  | .failed _ => True

/-- The failure of a task. -/
def Task.failure? : Task F → Option (Error F)
  | .running _ => none
  | .failed e => some e

/-- The failure of the first task that has one. -/
def firstFailure? (tasks : List (Task F)) : Option (Error F) := tasks.findSome? Task.failure?

/-- One of the tasks runs its next instruction (a turn of the loop in `solve_instructions`). -/
inductive TaskStep (c : Circuit F) (hints : HintRegistry) :
    List (Task F) × State F → List (Task F) × State F → Prop where
  | runs {before after : List (Task F)} {index : UInt32} {rest : List UInt32} {s s' : State F}
    (run : (solveInstruction c hints index).run s = .ok () s') :
    TaskStep c hints (before ++ .running (index :: rest) :: after, s)
      (before ++ .running rest :: after, s')
  | fails {before after : List (Task F)} {index : UInt32} {rest : List UInt32} {s s' : State F}
    {e : Error F} (run : (solveInstruction c hints index).run s = .error e s') :
    TaskStep c hints (before ++ .running (index :: rest) :: after, s)
      (before ++ .failed e :: after, s')

/-- Some steps of tasks, in any order. -/
def TasksRun (c : Circuit F) (hints : HintRegistry) :
    List (Task F) × State F → List (Task F) × State F → Prop :=
  Relation.ReflTransGen (TaskStep c hints)

/-- What comes of tasks that have ended in a state. -/
def tasksResult (ended : List (Task F)) (s : State F) : EStateM.Result (Error F) (State F) Unit :=
  match firstFailure? ended with
  | none => .ok () s
  | some e => .error e s

/-! ## Levels and attempts -/

/-- The state in which it is noted that a level was split. -/
def State.withDispatch (s : State F) (d : Dispatch) : State F :=
  { s with dispatches := s.dispatches ++ [d] }

/-- The tasks of a level that is split. -/
def tasksOf (config : SolverConfig) (level : List UInt32) : List (List UInt32) :=
  (partition level.length config.workerCount config.minWork).map (slice level)

/-- A level ends with a result, its tasks interleaved in some way (the loop body of `run`). -/
inductive LevelRuns (c : Circuit F) (config : SolverConfig) (number : ℕ) (level : List UInt32)
    (s : State F) : EStateM.Result (Error F) (State F) Unit → Prop where
  | whole (unsplit : isSplit config level = false) :
    LevelRuns c config number level s ((runInstructions c config.hints level).run s)
  | split {ended : List (Task F)} {s' : State F} (split : isSplit config level = true)
    (run : TasksRun c config.hints ((tasksOf config level).map .running,
      s.withDispatch ⟨number, level.length, (tasksOf config level).length⟩) (ended, s'))
    (finished : ∀ t ∈ ended, t.HasEnded) :
    LevelRuns c config number level s (tasksResult ended s')

/-- Levels end with a result, one after the other up to the first failure (`run`). -/
inductive LevelsRun (c : Circuit F) (config : SolverConfig) :
    ℕ → List (List UInt32) → State F → EStateM.Result (Error F) (State F) Unit → Prop where
  | nil {number : ℕ} {s : State F} : LevelsRun c config number [] s (.ok () s)
  | fails {number : ℕ} {level : List UInt32} {rest : List (List UInt32)} {s s' : State F}
    {e : Error F} (first : LevelRuns c config number level s (.error e s')) :
    LevelsRun c config number (level :: rest) s (.error e s')
  | next {number : ℕ} {level : List UInt32} {rest : List (List UInt32)} {s s' : State F}
    {result : EStateM.Result (Error F) (State F) Unit}
    (first : LevelRuns c config number level s (.ok () s'))
    (others : LevelsRun c config (number + 1) rest s' result) :
    LevelsRun c config number (level :: rest) s result

/-- What comes of all levels. -/
def outcomeOf (c : Circuit F) :
    EStateM.Result (Error F) (State F) Unit → Except (Error F) (Solution F)
  | .ok _ s => (solution c s).mapError Error.fatal
  | .error e _ => .error e

/-- An attempt to solve a circuit may have the given outcome (`System.solve`). -/
inductive MayReturn (c : Circuit F) (config : SolverConfig) (witness : List F.Elem) :
    Except (Error F) (Solution F) → Prop where
  | refused {e : Error F} (begun : start c config.hints witness = .error e) :
    MayReturn c config witness (.error e)
  | ran {s : State F} {result : EStateM.Result (Error F) (State F) Unit}
    (begun : start c config.hints witness = .ok s)
    (levels : LevelsRun c config 0 c.levels.schedule s result) :
    MayReturn c config witness (outcomeOf c result)

/-- Two workers, who share each level of more than one instruction. -/
def twoWorkers : SolverConfig := ⟨HintRegistry.empty.register "bits" .bits, some 2, 1, false⟩

/-! ## One task after the other -/

variable {c : Circuit F} {hints : HintRegistry} {config : SolverConfig} {s s' : State F}

/-- How a task ends that runs alone. -/
def taskAfter : EStateM.Result (Error F) (State F) Unit → Task F
  | .ok _ _ => .running []
  | .error e _ => .failed e

theorem taskAfter_hasEnded (r : EStateM.Result (Error F) (State F) Unit) :
    (taskAfter r).HasEnded := by
  cases r with
  | ok => rfl
  | error => trivial

theorem tasksRun_task (c : Circuit F) (hints : HintRegistry) (before after : List (Task F))
    (l : List UInt32) (s : State F) :
    TasksRun c hints (before ++ .running l :: after, s)
      (before ++ taskAfter ((runInstructions c hints l).run s) :: after,
        stateAfter ((runInstructions c hints l).run s)) := by
  induction l generalizing s with
  | nil => exact .refl
  | cons index l ih =>
    simp only [runInstructions, EStateM.run_bind]
    cases run : (solveInstruction c hints index).run s with
    | ok _ s₁ => exact .head (.runs run) (ih s₁)
    | error e s₁ => exact .single (.fails run)

theorem runTasks_cons (task : List UInt32) (rest : List (List UInt32)) (s : State F) :
    (runTasks c hints (task :: rest)).run s =
      match (runInstructions c hints task).run s with
      | .ok _ s => (runTasks c hints rest).run s
      | .error e s => .error e (stateAfter ((runTasks c hints rest).run s)) := by
  change (match (runInstructions c hints task).run s with
    | .ok _ s => (runTasks c hints rest).run s
    | .error e s =>
      match (runTasks c hints rest).run s with
      | .ok _ s => .error e s
      | .error _ s => .error e s) = _
  cases (runInstructions c hints task).run s with
  | ok _ s₁ => rfl
  | error e s₁ =>
    dsimp only
    cases (runTasks c hints rest).run s₁ <;> rfl

theorem tasksResult_cons (t : Task F) (ended : List (Task F)) (s : State F) :
    tasksResult (t :: ended) s =
      match t.failure? with
      | none => tasksResult ended s
      | some e => .error e s := by
  simp only [tasksResult, firstFailure?, List.findSome?_cons]
  cases t.failure? <;> rfl

/-- Running the tasks one after the other is one of the ways to interleave them. -/
theorem tasksRun_runTasks (c : Circuit F) (hints : HintRegistry) (before : List (Task F))
    (tasks : List (List UInt32)) (s : State F) :
    ∃ ended, TasksRun c hints (before ++ tasks.map .running, s)
        (before ++ ended, stateAfter ((runTasks c hints tasks).run s)) ∧
      (∀ t ∈ ended, t.HasEnded) ∧
      (runTasks c hints tasks).run s
        = tasksResult ended (stateAfter ((runTasks c hints tasks).run s)) := by
  induction tasks generalizing before s with
  | nil => exact ⟨[], .refl, by simp, rfl⟩
  | cons task tasks ih =>
    have first := tasksRun_task c hints before (tasks.map .running) task s
    obtain ⟨ended, rest, finished, result⟩ := ih
      (before ++ [taskAfter ((runInstructions c hints task).run s)])
      (stateAfter ((runInstructions c hints task).run s))
    have last : stateAfter ((runTasks c hints (task :: tasks)).run s) = stateAfter
        ((runTasks c hints tasks).run (stateAfter ((runInstructions c hints task).run s))) := by
      rw [runTasks_cons]
      cases (runInstructions c hints task).run s <;> rfl
    refine ⟨taskAfter ((runInstructions c hints task).run s) :: ended, ?_, ?_, ?_⟩
    · rw [last]
      rw [List.append_assoc, List.append_assoc] at rest
      exact first.trans rest
    · intro t ht
      rcases List.mem_cons.1 ht with rfl | ht
      · exact taskAfter_hasEnded _
      · exact finished t ht
    · rw [last, tasksResult_cons, runTasks_cons]
      cases run : (runInstructions c hints task).run s with
      | ok _ s₁ =>
        rw [run] at result
        exact result
      | error e s₁ => rfl

theorem runLevel_levelRuns (c : Circuit F) (config : SolverConfig) (number : ℕ)
    (level : List UInt32) (s : State F) :
    LevelRuns c config number level s ((runLevel c config number level).run s) := by
  cases split : isSplit config level with
  | false =>
    simp only [runLevel, split, Bool.false_eq_true, if_false]
    exact .whole split
  | true =>
    obtain ⟨ended, run, finished, result⟩ := tasksRun_runTasks c config.hints []
      (tasksOf config level) (s.withDispatch ⟨number, level.length, (tasksOf config level).length⟩)
    have same : (runLevel c config number level).run s = (runTasks c config.hints
        (tasksOf config level)).run
          (s.withDispatch ⟨number, level.length, (tasksOf config level).length⟩) := by
      simp only [runLevel, split, if_true, EStateM.run_bind, EStateM.run_modify]
      rfl
    rw [same, result]
    exact .split split run finished

theorem runLevels_levelsRun (c : Circuit F) (config : SolverConfig) (number : ℕ)
    (levels : List (List UInt32)) (s : State F) :
    LevelsRun c config number levels s ((runLevels c config number levels).run s) := by
  induction levels generalizing number s with
  | nil => exact .nil
  | cons level rest ih =>
    have first := runLevel_levelRuns c config number level s
    simp only [runLevels, EStateM.run_bind]
    cases run : (runLevel c config number level).run s with
    | ok _ s₁ =>
      rw [run] at first
      exact .next first (ih (number + 1) s₁)
    | error e s₁ =>
      rw [run] at first
      exact .fails first

/-- What solving gives is one of the outcomes that interleaved tasks may have. -/
theorem solve_mayReturn (c : Circuit F) (config : SolverConfig) (witness : List F.Elem) :
    MayReturn c config witness (solve c config witness) := by
  cases begun : start c config.hints witness with
  | error e =>
    simp only [solve, attempt, begun]
    exact .refused begun
  | ok s =>
    have levels := runLevels_levelsRun c config 0 c.levels.schedule s
    have ran := MayReturn.ran begun levels
    simp only [solve, attempt, begun]
    cases run : (runLevels c config 0 c.levels.schedule).run s with
    | ok _ s' =>
      rw [run] at ran
      exact ran
    | error e s' =>
      rw [run] at ran
      exact ran

theorem mayReturn_of_solve {witness : List F.Elem} {out : Except (Error F) (Solution F)}
    (solved : solve c config witness = out) : MayReturn c config witness out := by
  rw [← solved]
  exact solve_mayReturn c config witness

/-! ## Invariants -/

/-- A property of states that instructions keep, whether they end well or fail, and that does not
    depend on the levels that were split. -/
structure Kept (c : Circuit F) (hints : HintRegistry) (P : State F → Prop) : Prop where
  instruction : ∀ (index : UInt32) (s : State F), P s →
    P (stateAfter ((solveInstruction c hints index).run s))
  dispatch : ∀ (d : Dispatch) (s : State F), P s → P (s.withDispatch d)

variable {P : State F → Prop}

theorem Kept.runInstructions (kept : Kept c hints P) (l : List UInt32) (h : P s) :
    P (stateAfter ((runInstructions c hints l).run s)) := by
  induction l generalizing s with
  | nil => exact h
  | cons index l ih =>
    have first := kept.instruction index s h
    simp only [Solver.runInstructions, EStateM.run_bind]
    cases run : (solveInstruction c hints index).run s with
    | ok _ s₁ =>
      rw [run] at first
      exact ih first
    | error e s₁ =>
      rw [run] at first
      exact first

/-- Tasks that share a state keep it, whichever of them takes the next step. -/
theorem Kept.tasksRun (kept : Kept c hints P) {before after : List (Task F) × State F}
    (h : P before.2) (run : TasksRun c hints before after) : P after.2 := by
  induction run with
  | refl => exact h
  | tail _ step ih =>
    cases step with
    | @runs _ _ index _ s s' run =>
      have next := kept.instruction index s ih
      rwa [run] at next
    | @fails _ _ index _ s s' e run =>
      have next := kept.instruction index s ih
      rwa [run] at next

theorem Kept.levelRuns (kept : Kept c config.hints P) {number : ℕ} {level : List UInt32}
    {result : EStateM.Result (Error F) (State F) Unit} (h : P s)
    (run : LevelRuns c config number level s result) : P (stateAfter result) := by
  cases run with
  | whole unsplit => exact kept.runInstructions level h
  | @split ended s' split run finished =>
    have last : stateAfter (tasksResult ended s') = s' := by
      unfold tasksResult
      split <;> rfl
    rw [last]
    exact kept.tasksRun (kept.dispatch _ s h) run

/-- Levels keep it however the tasks of each of them interleave, also if one of them fails. -/
theorem Kept.levelsRun (kept : Kept c config.hints P) {number : ℕ} {levels : List (List UInt32)}
    {result : EStateM.Result (Error F) (State F) Unit} (h : P s)
    (run : LevelsRun c config number levels s result) : P (stateAfter result) := by
  induction run with
  | nil => exact h
  | fails first => exact kept.levelRuns h first
  | next first others ih => exact ih (kept.levelRuns h first)

/-! ## Progress -/

/-- The instructions that tasks have still to run. -/
def remaining (tasks : List (Task F)) : List UInt32 :=
  tasks.flatMap fun
    | .running rest => rest
    | .failed _ => []

theorem Progress.congr {done done' : List UInt32} (h : Progress c hints done s s')
    (same : ∀ index, index ∈ done' ↔ index ∈ done) : Progress c hints done' s s' := by
  refine ⟨h.fills, fun index mem => h.ran index ((same index).1 mem), fun k row filled => ?_⟩
  refine (h.rows k row filled).imp_right ?_
  rintro ⟨index, mem, rest⟩
  exact ⟨index, (same index).2 mem, rest⟩

theorem failed_of_step {tasks tasks' : List (Task F)}
    (step : TaskStep c hints (tasks, s) (tasks', s')) {e : Error F} (h : .failed e ∈ tasks) :
    .failed e ∈ tasks' := by
  cases step with
  | runs run =>
    simp only [List.mem_append, List.mem_cons] at h ⊢
    obtain h | h | h := h
    · exact .inl h
    · cases h
    · exact .inr (.inr h)
  | fails run =>
    simp only [List.mem_append, List.mem_cons] at h ⊢
    obtain h | h | h := h
    · exact .inl h
    · cases h
    · exact .inr (.inr h)

/-- Tasks that end without a failure have made progress by all that they had to run. -/
theorem tasksRun_ok {before after : List (Task F) × State F} (run : TasksRun c hints before after)
    (finished : ∀ t ∈ after.1, t = .running []) :
    (∀ e, .failed e ∉ before.1) ∧
      Progress c hints (remaining before.1) before.2 after.2 := by
  induction run using Relation.ReflTransGen.head_induction_on with
  | refl =>
    refine ⟨fun e h => ?_, (Progress.refl _).congr fun index => ?_⟩
    · cases finished _ h
    · simp only [remaining, List.mem_flatMap, List.not_mem_nil, iff_false, not_exists, not_and]
      intro t ht
      rw [finished t ht]
      exact List.not_mem_nil
  | head step _ ih =>
    obtain ⟨clean, progress⟩ := ih
    refine ⟨fun e h => clean e (failed_of_step step h), ?_⟩
    cases step with
    | runs run =>
      refine ((Progress.single run).append progress).congr fun index => ?_
      simp only [remaining, List.flatMap_append, List.flatMap_cons, List.mem_append,
        List.mem_cons, List.not_mem_nil, or_false]
      tauto
    | @fails _ _ _ _ _ _ e run => exact absurd (by simp) (clean e)

theorem remaining_running (lists : List (List UInt32)) :
    remaining (F := F) (lists.map .running) = lists.flatten := by
  induction lists with
  | nil => rfl
  | cons l lists ih =>
    rw [remaining] at ih ⊢
    rw [List.map_cons, List.flatMap_cons, ih, List.flatten_cons]

theorem all_running_of_tasksResult {ended : List (Task F)} {u : Unit}
    (finished : ∀ t ∈ ended, t.HasEnded) (ok : tasksResult ended s = .ok u s') :
    s' = s ∧ ∀ t ∈ ended, t = .running [] := by
  unfold tasksResult at ok
  split at ok
  · next noneFailed =>
    obtain ⟨-, rfl⟩ := EStateM.Result.ok.inj ok
    refine ⟨rfl, fun t ht => ?_⟩
    have noFailure := List.findSome?_eq_none_iff.1 noneFailed t ht
    have ended := finished t ht
    cases t with
    | running rest => rw [show rest = [] from ended]
    | failed e => cases noFailure
  · cases ok

theorem levelRuns_ok {number : ℕ} {level : List UInt32} {u : Unit}
    {result : EStateM.Result (Error F) (State F) Unit}
    (h : LevelRuns c config number level s result) (ok : result = .ok u s') :
    Progress c config.hints level s s' := by
  cases h with
  | whole unsplit => exact runInstructions_ok ok
  | split split run finished =>
    obtain ⟨rfl, clean⟩ := all_running_of_tasksResult finished ok
    obtain ⟨-, progress⟩ := tasksRun_ok run clean
    rw [remaining_running, tasksOf, flatten_slices] at progress
    exact ⟨⟨progress.fills.values, progress.fills.rows, progress.fills.counted⟩, progress.ran,
      progress.rows⟩

theorem levelsRun_ok {number : ℕ} {levels : List (List UInt32)} {u : Unit}
    {result : EStateM.Result (Error F) (State F) Unit}
    (h : LevelsRun c config number levels s result) (ok : result = .ok u s') :
    Progress c config.hints levels.flatten s s' := by
  induction h with
  | nil =>
    obtain ⟨-, rfl⟩ := EStateM.Result.ok.inj ok
    exact .refl _
  | fails first => cases ok
  | next first others ih => exact (levelRuns_ok first rfl).append (ih ok)

/-- In every way to interleave the tasks, a solution is that of a run that made progress by all
    levels. -/
theorem mayReturn_ok {witness : List F.Elem} {sol : Solution F}
    (h : MayReturn c config witness (.ok sol)) :
    ∃ s s', start c config.hints witness = .ok s ∧
      Progress c config.hints c.levels.schedule.flatten s s' ∧ solution c s' = .ok sol := by
  generalize outcome : Except.ok sol = out at h
  cases h with
  | refused begun => cases outcome
  | ran begun levels =>
    next s result =>
    cases result with
    | error e s' => cases outcome
    | ok u s' =>
      refine ⟨s, s', begun, levelsRun_ok levels rfl, ?_⟩
      cases ended : solution c s' with
      | error e =>
        simp only [outcomeOf, ended] at outcome
        cases outcome
      | ok sol' =>
        simp only [outcomeOf, ended, Except.mapError, Except.ok.injEq] at outcome
        rw [outcome]

end CircuitWitness.Solver
