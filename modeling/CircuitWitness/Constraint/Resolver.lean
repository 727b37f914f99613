import CircuitWitness.Constraint.Term

/-!
# Terms in words

A resolver gives names to coefficients and wires. The coefficients one and minus one are not
written, the sum of no terms is `0`.
-/

namespace CircuitWitness

/-- Names for coefficients and wires (`Resolver`). -/
structure Resolver where
  coeffText : CoeffId → String
  wireText : WireId → String

namespace Resolver

/-- A term: the wire, with its coefficient in front unless that is one (`write_term`). -/
def term (names : Resolver) (t : Term) : String :=
  if t.coeff = CoeffId.one then names.wireText t.wire
  else if t.coeff = CoeffId.minusOne then "-" ++ names.wireText t.wire
  else names.coeffText t.coeff ++ "⋅" ++ names.wireText t.wire

/-- A linear expression (`write_linear_expression`). -/
def expr (names : Resolver) (e : LinearExpr) : String :=
  if e.isEmpty then "0" else " + ".intercalate (e.map names.term)

end Resolver

end CircuitWitness
