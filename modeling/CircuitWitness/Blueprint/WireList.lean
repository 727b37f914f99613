import CircuitWitness.Blueprint.Solve

/-!
# Gates over a plain list of wires

Closed-form solving over a list of optional values and a list of coefficients, without a circuit
around it.
-/

namespace CircuitWitness

/-- Why an access to a list of wires fails (`MockError`). -/
inductive WireListFault (F : PrimeField) where
  | noCoeff (id : CoeffId)
  | noWire (wire : WireId)
  | unsolved (wire : WireId)
  | notEqual (left right : F.Elem)
  | blueprint (error : Blueprint.Error)
deriving DecidableEq

/-- The fault in words: the id that was looked for, or the values that differ. -/
def WireListFault.message {F : PrimeField} : WireListFault F → String
  | .noCoeff id => toString id.toNat
  | .noWire wire => toString wire.toNat
  | .unsolved wire => toString wire.toNat
  | .notEqual left right => left.decimal ++ " != " ++ right.decimal
  | .blueprint error => error.message

namespace WireList

variable {F : PrimeField}

/-- An access to a list of wires, which keeps the values set before a failure (the state of
    `MockSolver`). -/
abbrev Access (F : PrimeField) := EStateM (WireListFault F) (List (Option F.Elem))

/-- The place of a wire, with its value if it has one (`get` of `MockSolver`). -/
def place (w : WireId) : Access F (Option F.Elem) := do
  match (← get)[w.toNat]? with
  | some x => return x
  | none => throw (.noWire w)

/-- The accesses to a list of wires with the given coefficients (`MockSolver` as a `WireSolver`).
    Setting a wire replaces its value. -/
def access (coeffs : List F.Elem) : WireAccess F (Access F) where
  coeff id :=
    match coeffs[id.toNat]? with
    | some q => pure q
    | none => throw (.noCoeff id)
  isSolved w := Option.isSome <$> place w
  value w := do
    match ← place w with
    | some x => return x
    | none => throw (.unsolved w)
  assign w x := do
    let _ ← place w
    modify fun values => values.set w.toNat (some x)
  checkEqual left right := if left = right then pure () else throw (.notEqual left right)
  fault e := throw (.blueprint e)

end WireList

end CircuitWitness
