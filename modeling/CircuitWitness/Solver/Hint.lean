import CircuitWitness.Solver.State

/-!
# Calling a hint

The inputs are evaluated over the solved wires, the function is called with their
representatives, and each output wire is set to the class of its output.
-/

namespace CircuitWitness.Solver

variable {F : PrimeField}

/-- Adds the value of an input term to a sum (the inner loop of `solve_with_hint`). -/
def addInputTerm (c : Circuit F) (hint : HintId) (sum : F.Elem) (t : Term) :
    Solve F F.Elem := do
  if t.isZero then return sum
  if c.kind.isConstant t then
    let q ← coeff c t.coeff
    return sum + q
  let solved ← isSolved t.wire
  if !solved then fail (.unsolvedHintInput t.wire hint)
  let x ← termValue c t
  return sum + x

/-- The value of an input (in `solve_with_hint`). -/
def inputValue (c : Circuit F) (hint : HintId) (e : LinearExpr) : Solve F F.Elem :=
  e.foldlM (addInputTerm c hint) 0

/-- The values of the inputs (in `solve_with_hint`). -/
def inputValues (c : Circuit F) (hint : HintId) : List LinearExpr → Solve F (List F.Elem)
  | [] => pure []
  | e :: rest => do
    let x ← inputValue c hint e
    let xs ← inputValues c hint rest
    return x :: xs

/-- Sets wires one after the other (the end of `solve_with_hint`). -/
def assignAll : List (WireId × Nat) → Solve F Unit
  | [] => pure ()
  | (w, n) :: rest => do
    assign w (PrimeField.Elem.ofNat n)
    assignAll rest

/-- Calls a hint and sets its outputs (`solve_with_hint`). -/
def solveHint (c : Circuit F) (hints : HintRegistry) (h : HintCall) : Solve F Unit := do
  match hints.find? h.hint with
  | none => throw (.missingHints [(c.hintNames.find? h.hint).getD (Text.hexWord h.hint)])
  | some hint =>
    let inputs ← inputValues c h.hint h.inputs
    let modulus := F.modulus
    match hint.function.outputs modulus (inputs.map PrimeField.Elem.val) h.outputs.length with
    | .error cause => throw (.hint h.hint hint.name cause)
    | .ok outputs => assignAll (h.outputs.zip outputs)

end CircuitWitness.Solver
