import CircuitWitness.Circuit.Query
import CircuitWitness.Solver.Error

/-!
# The state of an attempt

Each wire has a place for its value, which is filled once. Reading a wire that has no value, or
that does not exist, is fatal; so is setting a wire again. For each rank-one constraint there is a
place for the values of its three expressions.

Values of expressions are also needed where nothing may fail, for descriptions and logs. There an
expression that cannot be evaluated is shown as unsolved.
-/

namespace CircuitWitness.Solver

variable {F : PrimeField}

/-- The values of the three expressions of a rank-one constraint (an entry of the `abc` of a
    `Solver`). -/
structure Row (F : PrimeField) where
  a : F.Elem
  b : F.Elem
  c : F.Elem
deriving DecidableEq

/-- A level that was split: its number, its instructions and the tasks it was split into (the trace
    event of `run` for a split level). -/
structure Dispatch where
  level : Nat
  instructionCount : Nat
  taskCount : Nat
deriving DecidableEq, Repr

/-- What is known at some point (`Solution` while solving, with the `abc` of the `Solver`). -/
structure State (F : PrimeField) where
  values : List (Option F.Elem)
  solvedCount : Nat
  rows : List (Option (Row F))
  dispatches : List Dispatch

/-- A part of solving, which may fail; what was found before a failure stays known. -/
abbrev Solve (F : PrimeField) := EStateM (Error F) (State F)

/-- Fails with a fault of the circuit. -/
def fail {α : Type} (e : FatalError) : Solve F α := throw (.fatal e)

/-- The state in which nothing is known (`new` of `Solution` and of the `abc`). -/
def State.blank (F : PrimeField) (wireCount rowCount : Nat) : State F :=
  ⟨List.replicate wireCount none, 0, List.replicate rowCount none, []⟩

/-! ## Wires and coefficients -/

/-- The value of a wire, if the wire exists and is solved (`Solution.get`). -/
def State.value? (s : State F) (w : WireId) : Option F.Elem := s.values[w.toNat]?.join

/-- Whether a wire is solved (`Solution.is_solved`). -/
def isSolved (w : WireId) : Solve F Bool := do
  let s ← get
  match s.values[w.toNat]? with
  | some x => return x.isSome
  | none => fail (.wireOutOfRange w s.values.length)

/-- The value of a wire, which must be solved (`Solution.value`). -/
def value (w : WireId) : Solve F F.Elem := do
  let s ← get
  match s.values[w.toNat]? with
  | some (some x) => return x
  | some none => fail (.unsolvedWire w)
  | none => fail (.wireOutOfRange w s.values.length)

/-- Sets a wire, which must not be solved (`Solution.set`). -/
def assign (w : WireId) (x : F.Elem) : Solve F Unit := do
  let s ← get
  match s.values[w.toNat]? with
  | some none =>
    set { s with values := s.values.set w.toNat (some x), solvedCount := s.solvedCount + 1 }
  | some (some _) => fail (.wireSolvedTwice w)
  | none => fail (.wireOutOfRange w s.values.length)

/-- The coefficient with an id (`Solution.coeff`). -/
def coeff (c : Circuit F) (id : CoeffId) : Solve F F.Elem :=
  match c.coeffs.get? id with
  | some x => pure x
  | none => fail (.coeffOutOfRange id)

/-- The value of a term (`compute_term`, `accumulate_into`). The wire is not looked at if the
    coefficient is the zero entry. -/
def termValue (c : Circuit F) (t : Term) : Solve F F.Elem := do
  if t.isZero then return 0
  let x ← value t.wire
  if t.coeff = CoeffId.one then return x
  if t.coeff = CoeffId.two then return x.double
  if t.coeff = CoeffId.minusOne then return -x
  let q ← coeff c t.coeff
  return q * x

/-! ## Values for descriptions and logs -/

/-- The value of a term, if it can be found (in `try_eval`). -/
def State.termValue? (s : State F) (c : Circuit F) (t : Term) : Option F.Elem :=
  if c.kind.isConstant t then c.coeffs.get? t.coeff
  else if t.isZero then some 0
  else do
    let x ← s.value? t.wire
    if t.coeff = CoeffId.one then return x
    if t.coeff = CoeffId.two then return x.double
    if t.coeff = CoeffId.minusOne then return -x
    let q ← c.coeffs.get? t.coeff
    return q * x

/-- The value of an expression, if it can be found (`try_eval`). -/
def State.exprValue? (s : State F) (c : Circuit F) (e : LinearExpr) : Option F.Elem :=
  e.foldlM (fun sum t => (s.termValue? c t).map (sum + ·)) 0

/-- What stands for an expression that cannot be evaluated (`UNSOLVED_VARIABLE`). -/
def unsolvedText : String := "<unsolved>"

/-- The value of an expression in words (`log_value`). -/
def State.exprText (s : State F) (c : Circuit F) (e : LinearExpr) : String :=
  match s.exprValue? c e with
  | some x => x.decimal
  | none => unsolvedText

/-- A log entry with the values known, followed by its stack (in `unsatisfied` and `print_logs`). -/
def State.entryText (s : State F) (c : Circuit F) (entry : LogEntry) : String :=
  entry.render (s.exprText c) ++ c.symbols.stackText entry.stack

/-- Fails because a relation of a constraint does not hold (`unsatisfied`). -/
def unsatisfied {α : Type} (c : Circuit F) (constraint : UInt32) (relation : Relation F) :
    Solve F α := do
  let s ← get
  throw (.unsatisfied ⟨constraint, relation, (c.description? constraint).map (s.entryText c)⟩)

end CircuitWitness.Solver
