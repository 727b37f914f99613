import CircuitWitness.Solver.Config
import CircuitWitness.Solver.Gate
import CircuitWitness.Solver.Hint
import CircuitWitness.Solver.Partition
import CircuitWitness.Solver.RankOne
import CircuitWitness.Solver.Solution

/-!
# Solving a circuit

The levels are solved one after the other. A level may be split into ranges that run as tasks;
each task stops at its own first failure, and the failure of the first range that has one is that
of the level. The values found do not depend on how the tasks of a level interleave as long as no
instruction reads what another of its level sets, so the tasks run here one after the other.

After the last level, or after a failure, the log statements of the circuit are rendered. A
solution needs every wire and every constraint to be solved.
-/

namespace CircuitWitness.Solver

variable {F : PrimeField}

/-! ## Instructions and levels -/

/-- What a circuit answers, with its error as a fault of an instruction. -/
def orFatal {α : Type} (instruction : UInt32) : Except Circuit.Error α → Solve F α
  | .ok x => pure x
  | .error e => fail (.ofCircuit instruction e)

/-- Solves an instruction, given by its place (`solve_instruction`). -/
def solveInstruction (c : Circuit F) (hints : HintRegistry) (index : UInt32) : Solve F Unit := do
  match c.instructions[index.toNat]? with
  | none => fail (.malformed index .unknownIndex)
  | some i =>
    let b ← orFatal index (c.blueprintAt i.blueprint)
    let words ← orFatal index (c.callDataOf i)
    match ← orFatal index (c.operationOf i) with
    | .r1c r => solveR1C c i.constraint r
    | .gate g => solvePackedGate c i.constraint b words g
    | .hint h => solveHint c hints h

/-- Solves instructions in order, up to the first failure (`solve_instructions`). -/
def runInstructions (c : Circuit F) (hints : HintRegistry) : List UInt32 → Solve F Unit
  | [] => pure ()
  | index :: rest => do
    solveInstruction c hints index
    runInstructions c hints rest

/-- Runs all tasks and fails with the first failure among them (the parallel part of `run`). -/
def runTasks (c : Circuit F) (hints : HintRegistry) : List (List UInt32) → Solve F Unit
  | [] => pure ()
  | task :: rest => fun s =>
    match (runInstructions c hints task).run s with
    | .ok _ s => (runTasks c hints rest).run s
    | .error e s =>
      match (runTasks c hints rest).run s with
      | .ok _ s => .error e s
      | .error _ s => .error e s

/-- Whether a level is split (in `run`). -/
def isSplit (config : SolverConfig) (level : List UInt32) : Bool :=
  1 < config.workerCount && config.minWork < level.length

/-- Solves a level (the loop body of `run`). -/
def runLevel (c : Circuit F) (config : SolverConfig) (number : Nat) (level : List UInt32) :
    Solve F Unit := do
  if isSplit config level then
    let tasks := (partition level.length config.workerCount config.minWork).map (slice level)
    modify fun s => { s with dispatches := s.dispatches ++ [⟨number, level.length, tasks.length⟩] }
    runTasks c config.hints tasks
  else runInstructions c config.hints level

/-- Solves levels in order, the first of which has the given number (`run`). -/
def runLevels (c : Circuit F) (config : SolverConfig) :
    Nat → List (List UInt32) → Solve F Unit
  | _, [] => pure ()
  | number, level :: rest => do
    runLevel c config number level
    runLevels c config (number + 1) rest

/-! ## The start -/

/-- The names of the hints that a circuit uses and a registry lacks, by id (in `Solver.new`). -/
def missingHints (c : Circuit F) (hints : HintRegistry) : List String :=
  (c.hintNames.entries.filter fun e => !hints.contains e.1).map Prod.snd

/-- Sets wires one after the other, from a place on (in `Solver.new`). -/
def assignFrom (place : Nat) : List F.Elem → Solve F Unit
  | [] => pure ()
  | x :: rest => do
    assign (UInt32.ofNat place) x
    assignFrom (place + 1) rest

/-- Sets the inputs (in `Solver.new`). -/
def assignInputs (c : Circuit F) (witness : List F.Elem) : Solve F Unit := do
  match c.kind with
  | .r1cs =>
    assign oneWire 1
    assignFrom 1 witness
  | .sparse => assignFrom 0 witness

/-- The number of places for the values of rank-one constraints (the length of the `abc` of a
    `Solver`). -/
def rowCount (c : Circuit F) : Nat :=
  match c.kind with
  | .r1cs => c.constraintCount
  | .sparse => 0

/-- The state in which the inputs are known (`Solver.new`). -/
def start (c : Circuit F) (hints : HintRegistry) (witness : List F.Elem) :
    Except (Error F) (State F) :=
  let missing := missingHints c hints
  if missing ≠ [] then .error (.missingHints missing)
  else if witness.length ≠ c.witnessLength then
    .error (.witnessSize c.witnessLength witness.length)
  else
    match (assignInputs c witness).run (State.blank F c.wireCount (rowCount c)) with
    | .ok _ s => .ok s
    | .error e _ => .error e

/-! ## The end -/

/-- The entries of a list without gaps (in `into_values`). -/
def complete? {α : Type} : List (Option α) → Option (List α)
  | [] => some []
  | none :: _ => none
  | some x :: rest => (complete? rest).map (x :: ·)

/-- The rows of all constraints, the first of which has the given number (in `into_output`). -/
def completeRows : Nat → List (Option (Row F)) → Except FatalError (List (Row F))
  | _, [] => .ok []
  | number, none :: _ => .error (.malformed (UInt32.ofNat number) .neverSolved)
  | number, some row :: rest => do
    let rows ← completeRows (number + 1) rest
    return row :: rows

/-- The values of all wires, if all are solved (`into_values`). -/
def assignment (s : State F) : Except FatalError (List F.Elem) :=
  match complete? s.values with
  | some w =>
    if s.solvedCount = s.values.length then .ok w
    else .error (.incomplete s.solvedCount s.values.length)
  | none => .error (.incomplete s.solvedCount s.values.length)

/-- The solution of a state in which all is solved (`into_output`). -/
def solution (c : Circuit F) (s : State F) : Except FatalError (Solution F) := do
  let w ← assignment s
  match c.kind with
  | .r1cs =>
    let rows ← completeRows 0 s.rows
    return .r1cs ⟨w, rows.map Row.a, rows.map Row.b, rows.map Row.c⟩
  | .sparse =>
    let gates ← c.gates.mapError (FatalError.ofCircuit 0)
    return .sparse (.ofAssignment w c.publicNames.length gates)

/-! ## Attempts -/

/-- What comes of an attempt: the solution or why there is none, the log statements with their
    callers, and the levels that were split. -/
structure Attempt (F : PrimeField) where
  outcome : Except (Error F) (Solution F)
  logs : List (String × String)
  dispatches : List Dispatch

/-- The log statements of a circuit, with their callers (`print_logs`). -/
def renderLogs (c : Circuit F) (s : State F) : List (String × String) :=
  c.logs.map fun entry => (entry.caller, s.entryText c entry)

/-- Solves a circuit for the values of its inputs, the public ones first; the wire of one is not
    among them (`System.solve`, with what it prints and traces). -/
def attempt (c : Circuit F) (config : SolverConfig) (witness : List F.Elem) : Attempt F :=
  match start c config.hints witness with
  | .error e => ⟨.error e, [], []⟩
  | .ok s =>
    match (runLevels c config 0 c.levels.schedule).run s with
    | .ok _ s =>
      ⟨(solution c s).mapError Error.fatal, if config.logs then renderLogs c s else [],
        s.dispatches⟩
    | .error e s => ⟨.error e, if config.logs then renderLogs c s else [], s.dispatches⟩

/-- The solution of a circuit for the values of its inputs (`System.solve`). -/
def solve (c : Circuit F) (config : SolverConfig) (witness : List F.Elem) :
    Except (Error F) (Solution F) :=
  (attempt c config witness).outcome

end CircuitWitness.Solver
