import CircuitWitness.Blueprint.Basic
import CircuitWitness.Constraint.Term
import CircuitWitness.Field.Basic

/-!
# Gates in closed form

Products, sums and bits can be solved from their words. The output wire of a product or a sum is
set if it is not known yet; else the gate is checked, and so is that of a bit. Values are read
through a `WireAccess`, so that the same rules serve the solver and a plain list of wires; the
order of the reads is part of the rules, since it decides which fault is met first.
-/

namespace CircuitWitness

/-- How a gate reads and sets wires, in a monad with faults (`WireSolver`). -/
structure WireAccess (F : PrimeField) (m : Type → Type) where
  coeff : CoeffId → m F.Elem
  isSolved : WireId → m Bool
  value : WireId → m F.Elem
  assign : WireId → F.Elem → m Unit
  checkEqual : F.Elem → F.Elem → m Unit
  fault : Blueprint.Error → m Unit

namespace WireAccess

variable {F : PrimeField} {m : Type → Type} [Monad m]

/-- Sets a wire, or checks its value if it has one (`assign_or_check`). -/
def assignOrCheck (wires : WireAccess F m) (wire : WireId) (x : F.Elem) : m Unit := do
  if ← wires.isSolved wire then
    let known ← wires.value wire
    wires.checkEqual x known
  else wires.assign wire x

/-- `xc = qm⋅xa⋅xb` (`solve_mul`). -/
def solveProduct (wires : WireAccess F m) (qm : CoeffId) (xa xb xc : WireId) : m Unit := do
  let q ← wires.coeff qm
  let a ← wires.value xa
  let b ← wires.value xb
  wires.assignOrCheck xc (q * a * b)

/-- `xc = ql⋅xa + qr⋅xb + qc` (`solve_add`). -/
def solveSum (wires : WireAccess F m) (xa xb xc : WireId) (ql qr qc : CoeffId) : m Unit := do
  let l ← wires.coeff ql
  let a ← wires.value xa
  let r ← wires.coeff qr
  let b ← wires.value xb
  let c ← wires.coeff qc
  wires.assignOrCheck xc (l * a + r * b + c)

/-- `ql⋅xa + qm⋅xa⋅xa = 0` (`solve_bool`). -/
def checkBit (wires : WireAccess F m) (xa : WireId) (ql qm : CoeffId) : m Unit := do
  let x ← wires.value xa
  let l ← wires.coeff ql
  let q ← wires.coeff qm
  wires.checkEqual (l * x + q * x * x) 0

end WireAccess

/-- Solves or checks one instruction from its words (`Blueprint.solve`). -/
def Blueprint.solve {F : PrimeField} {m : Type → Type} [Monad m] (b : Blueprint)
    (wires : WireAccess F m) (words : CallData) : m Unit :=
  match b, words with
  | .mul, [qm, xa, xb, xc] => wires.solveProduct qm xa xb xc
  | .add, [xa, xb, xc, ql, qr, qc] => wires.solveSum xa xb xc ql qr qc
  | .bool, [xa, ql, qm] => wires.checkBit xa ql qm
  | .mul, _ | .add, _ | .bool, _ => wires.fault (.malformed b .wordCount)
  | _, _ => wires.fault (.unsupported b .solve)

end CircuitWitness
