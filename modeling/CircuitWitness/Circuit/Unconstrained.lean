import CircuitWitness.Circuit.Query

/-!
# Wires without constraint

An input or a hint output that no constraint mentions can take any value. The report names such
inputs and counts such outputs; reading a wire by a hint does not constrain it, and neither does a
term with the zero coefficient.
-/

namespace CircuitWitness

/-- What to do when there are wires without constraint (`UnconstrainedWirePolicy`). -/
inductive UnconstrainedPolicy where
  /-- Report them. -/
  | allow
  /-- Report them and warn. -/
  | warn
  /-- Fail. -/
  | deny
deriving DecidableEq, Repr

/-- The policy unless another is chosen (the default of `UnconstrainedWirePolicy`). -/
def UnconstrainedPolicy.standard : UnconstrainedPolicy := .warn

/-- The wires without constraint: names of inputs, and how many hint outputs
    (`UnconstrainedWires`). -/
structure UnconstrainedWires where
  inputs : List String
  hintOutputCount : Nat
deriving DecidableEq, Repr

/-- Whether every wire has a constraint (`is_empty`). -/
def UnconstrainedWires.isEmpty (u : UnconstrainedWires) : Bool :=
  u.inputs.isEmpty && u.hintOutputCount = 0

/-- The wires that an operation constrains (what `check_unconstrained_wires` marks with `mark`). -/
def Operation.constrains : Operation → List WireId
  | .r1c c => (c.terms.filter fun t => !t.isZero).map Term.wire
  | .gate g => g.wires
  | .hint _ => []

/-- The wires that a hint sets (in `check_unconstrained_wires`). -/
def Operation.hintOutputs : Operation → List WireId
  | .hint h => h.outputs
  | .r1c _ | .gate _ => []

namespace Circuit

variable {F : PrimeField}

/-- The number of wires at the start that need no constraint (the `skip` of
    `check_unconstrained_wires`). -/
def exemptCount (c : Circuit F) : Nat :=
  match c.kind with
  | .r1cs => oneWire.toNat + 1
  | .sparse => 0

/-- The inputs and hint outputs that no constraint mentions (the report of
    `check_unconstrained_wires`). -/
def unconstrainedWires (c : Circuit F) : Except Error UnconstrainedWires := do
  let operations ← c.instructions.mapM c.operationOf
  let constrained := operations.flatMap Operation.constrains
  let inputs := (c.publicNames ++ c.secretNames).zipIdx.filter fun (_, wire) =>
    c.exemptCount ≤ wire && !constrained.any fun w => w.toNat = wire
  let outputs := (operations.flatMap Operation.hintOutputs).eraseDups
  return ⟨inputs.map Prod.fst, (outputs.filter fun w => !constrained.contains w).length⟩

/-- Whether a report makes a policy warn (in `check_unconstrained_wires`). -/
def warns (policy : UnconstrainedPolicy) (report : UnconstrainedWires) : Bool :=
  policy = .warn && !report.isEmpty

/-- The report on wires without constraint; a failure if the policy denies them
    (`check_unconstrained_wires`). -/
def checkUnconstrained (c : Circuit F) (policy : UnconstrainedPolicy) :
    Except Error UnconstrainedWires := do
  let report ← c.unconstrainedWires
  if policy = .deny ∧ !report.isEmpty then
    throw (.unconstrainedWires report.inputs report.hintOutputCount)
  return report

end Circuit

end CircuitWitness
