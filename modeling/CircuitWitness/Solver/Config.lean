import CircuitWitness.Hint.Builtin
import CircuitWitness.Solver.Setting

/-!
# Options of the solver

Which hints it may call, on how many workers it runs, from which size on a level is split, and
whether it renders the log statements.
-/

namespace CircuitWitness

/-- The options of one attempt to solve (`SolverConfig`). -/
structure SolverConfig where
  hints : HintRegistry
  /-- The number of workers; `none` leaves it to the machine. -/
  workers : Option Nat
  /-- A level with more instructions than this may be split. -/
  minWork : Nat
  logs : Bool

namespace SolverConfig

/-- The size up to which levels are not split, unless another is chosen
    (`DEFAULT_MIN_WORK_PER_WORKER`). -/
def standardMinWork : Nat := 50

/-- The built-in hints, as many workers as the machine likes, logs (`SolverConfig.default`). -/
def standard : SolverConfig := ⟨.builtin, none, standardMinWork, true⟩

instance : Inhabited SolverConfig := ⟨standard⟩

/-- The variable that chooses the number of workers (`WORKERS_ENV_VAR`). -/
def workersVariable : String := "ZKC_SOLVER_WORKERS"

/-- The variable that turns logs off (`NO_LOGS_ENV_VAR`). -/
def noLogsVariable : String := "ZKC_SOLVER_NO_LOGS"

/-- The standard options as the environment changes them (`from_env`). -/
def ofEnvironment (lookup : String → Option String) : SolverConfig :=
  { standard with
    workers := (lookup workersVariable).bind Setting.positive?
    logs := !(lookup noLogsVariable).any Setting.isSet }

/-- The number of workers, where the machine has one to offer (`nb_workers`). -/
def workerCount (config : SolverConfig) : Nat := config.workers.getD 1

/-- Chooses the number of workers, at least one (`with_workers`). -/
def withWorkers (config : SolverConfig) (n : Nat) : SolverConfig :=
  { config with workers := some (max n 1) }

/-- Chooses the size from which on levels are split, at least one (`with_min_work_per_worker`). -/
def withMinWork (config : SolverConfig) (n : Nat) : SolverConfig :=
  { config with minWork := max n 1 }

/-- Turns logs on or off (`with_logs`). -/
def withLogs (config : SolverConfig) (on : Bool) : SolverConfig := { config with logs := on }

/-- Adds a hint (`with_hint`, `with_hint_arc`). -/
def withHint (config : SolverConfig) (name : String) (f : HintFunction) : SolverConfig :=
  { config with hints := config.hints.register name f }

/-- Adds all hints of a registry (`with_hints`). -/
def withHints (config : SolverConfig) (hints : HintRegistry) : SolverConfig :=
  { config with hints := config.hints.extend hints }

end SolverConfig

end CircuitWitness
