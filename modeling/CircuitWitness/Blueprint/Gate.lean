import CircuitWitness.Blueprint.Basic
import CircuitWitness.Constraint.Gate

/-!
# Call data of gates

The generic layout holds any gate. The layouts for products, sums and bits hold the gates of one
shape in fewer words; the coefficients that they leave out are zero, except the output
coefficient of products and sums, which is minus one.

Results:
* `ofWords_words_generic`: the generic words of a gate are read back as the gate.
-/

namespace CircuitWitness.Gate

open Blueprint (ShapeFault CallDataFault)

/-! ## Shapes -/

/-- Why a gate has no form in a layout (the checks of `compress_mul`, `compress_add`,
    `compress_bool`). -/
def shapeFault? (g : Gate) : Blueprint → Option ShapeFault
  | .mul =>
    if g.ql ≠ CoeffId.zero ∨ g.qr ≠ CoeffId.zero ∨ g.qc ≠ CoeffId.zero then some .onlyProduct
    else if g.qo ≠ CoeffId.minusOne ∧ g.qo ≠ CoeffId.zero then some .outputNotMinusOne
    else if g.commitment ≠ .plain then some .commitmentGate
    else none
  | .add =>
    if g.qm ≠ CoeffId.zero then some .productSet
    else if g.qo ≠ CoeffId.minusOne then some .outputNotMinusOne
    else if g.commitment ≠ .plain then some .commitmentGate
    else none
  | .bool =>
    if g.qr ≠ CoeffId.zero ∨ g.qo ≠ CoeffId.zero ∨ g.qc ≠ CoeffId.zero then
      some .onlySquareAndLinear
    else if g.qm ≠ CoeffId.zero ∧ g.xb ≠ g.xa then some .notASquare
    else if g.commitment ≠ .plain then some .commitmentGate
    else none
  | .genericR1C | .genericGate | .genericHint => none

/-! ## Words -/

/-- The words of a gate in a layout (what `compress_generic`, `compress_mul`, `compress_add`,
    `compress_bool` append). -/
def words (g : Gate) : Blueprint → List UInt32
  | .genericGate => [g.xa, g.xb, g.xc, g.ql, g.qr, g.qo, g.qm, g.qc, g.commitment.toWord]
  | .mul => [g.qm, g.xa, g.xb, g.xc]
  | .add => [g.xa, g.xb, g.xc, g.ql, g.qr, g.qc]
  | .bool => [g.xa, g.ql, g.qm]
  | .genericR1C | .genericHint => []

/-- The gate `qm⋅xa⋅xb - xc = 0` (the result of `decompress_mul`). -/
def product (qm : CoeffId) (xa xb xc : WireId) : Gate :=
  { empty with xa, xb, xc, qm, qo := CoeffId.minusOne }

/-- The gate `ql⋅xa + qr⋅xb + qc - xc = 0` (the result of `decompress_add`). -/
def sum (xa xb xc : WireId) (ql qr qc : CoeffId) : Gate :=
  { empty with xa, xb, xc, ql, qr, qc, qo := CoeffId.minusOne }

/-- The gate `ql⋅xa + qm⋅xa⋅xa = 0` (the result of `decompress_bool`). -/
def bit (xa : WireId) (ql qm : CoeffId) : Gate :=
  { empty with xa, xb := xa, xc := xa, ql, qm }

/-- The gate of a range of words in a layout (`decompress_generic`, `decompress_mul`,
    `decompress_add`, `decompress_bool`). -/
def ofWords : Blueprint → CallData → Except CallDataFault Gate
  | .genericGate, [xa, xb, xc, ql, qr, qo, qm, qc, tag] =>
    match Commitment.ofWord? tag with
    | some commitment => .ok ⟨xa, xb, xc, ql, qr, qo, qm, qc, commitment⟩
    | none => .error .unknownCommitment
  | .mul, [qm, xa, xb, xc] => .ok (product qm xa xb xc)
  | .add, [xa, xb, xc, ql, qr, qc] => .ok (sum xa xb xc ql qr qc)
  | .bool, [xa, ql, qm] => .ok (bit xa ql qm)
  | _, _ => .error .wordCount

theorem ofWords_words_generic (g : Gate) : ofWords .genericGate (g.words .genericGate) = .ok g := by
  simp only [words, ofWords, Commitment.ofWord?_eq_some_iff.2 rfl]

end CircuitWitness.Gate
