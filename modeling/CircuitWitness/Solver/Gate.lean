import CircuitWitness.Blueprint.Solve
import CircuitWitness.Solver.State

/-!
# Solving a gate

With one unsolved wire `u` the gate is a polynomial in `u` of degree at most two. A square makes
it unsolvable here; a linear one has one root; a constant one does not depend on `u`, which is
then taken to be zero, and the gate is checked. Gates that bind a commitment are solved but never
checked, and those that assert a committed value are passed over.
-/

namespace CircuitWitness.Solver

variable {F : PrimeField}

/-- Fails unless a gate over solved wires holds (`check_sparse_r1c`). -/
def checkGate (c : Circuit F) (constraint : UInt32) (g : Gate) : Solve F Unit := do
  let l ← termValue c ⟨g.ql, g.xa⟩
  let r ← termValue c ⟨g.qr, g.xb⟩
  let o ← termValue c ⟨g.qo, g.xc⟩
  let m₀ ← termValue c ⟨g.qm, g.xa⟩
  let m₁ ← if g.qm = CoeffId.zero then pure 0 else value g.xb
  let q ← coeff c g.qc
  if m₀ * m₁ + l + r + o + q ≠ 0 then unsatisfied c constraint (.gate l r o m₀ m₁ q)

/-- The wires of a list that are not solved (the `unknowns` of `solve_sparse_r1c`). -/
def unsolvedOf : List WireId → Solve F (List WireId)
  | [] => pure []
  | w :: rest => do
    let solved ← isSolved w
    let others ← unsolvedOf rest
    return if solved then others else w :: others

/-- An operand `slope⋅u + constant` in the unsolved wire `u` (`Operand`). -/
structure Affine (F : PrimeField) where
  slope : F.Elem
  constant : F.Elem

/-- An operand of a gate: zero if it takes no part, else the unsolved wire or a value
    (`operand`). -/
def operand (w : WireId) (used : Bool) (u : WireId) : Solve F (Affine F) := do
  if !used then return ⟨0, 0⟩
  if w = u then return ⟨1, 0⟩
  let x ← value w
  return ⟨0, x⟩

/-- The polynomial `alpha⋅u² + beta⋅u + gamma` (the coefficients that `solve_sparse_r1c` finds). -/
structure Quadratic (F : PrimeField) where
  alpha : F.Elem
  beta : F.Elem
  gamma : F.Elem

/-- A gate as a polynomial in its unsolved wire (in `solve_sparse_r1c`). -/
def gatePolynomial (c : Circuit F) (g : Gate) (u : WireId) : Solve F (Quadratic F) := do
  let a ← operand g.xa g.usesA u
  let b ← operand g.xb g.usesB u
  let o ← operand g.xc g.usesC u
  let ql ← coeff c g.ql
  let qr ← coeff c g.qr
  let qo ← coeff c g.qo
  let qm ← coeff c g.qm
  let qc ← coeff c g.qc
  return {
    alpha := qm * a.slope * b.slope
    beta := ql * a.slope + qr * b.slope + qo * o.slope
      + qm * (a.slope * b.constant + a.constant * b.slope)
    gamma := ql * a.constant + qr * b.constant + qo * o.constant
      + qm * a.constant * b.constant + qc }

/-- Checks a gate, if its commitment leaves that to the solver (in `solve_sparse_r1c`). -/
def checkIfPlain (c : Circuit F) (constraint : UInt32) (g : Gate) : Solve F Unit :=
  if g.commitment = .plain then checkGate c constraint g else pure ()

/-- Solves or checks a gate as a polynomial (`solve_sparse_r1c`). -/
def solveGate (c : Circuit F) (constraint : UInt32) (g : Gate) : Solve F Unit := do
  if g.commitment = .asserts then return
  match ← unsolvedOf g.wires with
  | [] => checkIfPlain c constraint g
  | [u] =>
    let p ← gatePolynomial c g u
    if p.alpha ≠ 0 then fail (.multipleUnsolved constraint)
    match p.beta.inverse? with
    | some i => assign u (-p.gamma * i)
    | none =>
      assign u 0
      checkIfPlain c constraint g
  | _ => fail (.multipleUnsolved constraint)

/-- The wires of an attempt, for gates in closed form (`InstructionContext` as a `WireSolver`). -/
def wireAccess (c : Circuit F) (constraint : UInt32) : WireAccess F (Solve F) where
  coeff := coeff c
  isSolved := isSolved
  value := value
  assign := assign
  checkEqual left right :=
    if left = right then pure () else unsatisfied c constraint (.equal left right)
  fault e := fail (.ofBlueprint e)

/-- Whether both factors of a gate are solved; the second is not looked at if the first is not (the
    `operands_solved` of `solve_instruction`). -/
def factorsSolved (g : Gate) : Solve F Bool := do
  if ← isSolved g.xa then isSolved g.xb else return false

/-- Solves or checks a gate, in closed form where its blueprint has one and both factors are solved
    (in `solve_instruction`). -/
def solvePackedGate (c : Circuit F) (constraint : UInt32) (b : Blueprint) (words : CallData)
    (g : Gate) : Solve F Unit := do
  let ready ← factorsSolved g
  if b.isSolvable && ready then b.solve (wireAccess c constraint) words
  else solveGate c constraint g

end CircuitWitness.Solver
