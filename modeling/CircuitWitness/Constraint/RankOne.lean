import CircuitWitness.Constraint.Resolver

/-!
# Rank-one constraints

The product of two linear expressions equals a third.
-/

namespace CircuitWitness

/-- The constraint `l ⋅ r = o` (`R1C`). -/
structure R1C where
  l : LinearExpr
  r : LinearExpr
  o : LinearExpr
deriving DecidableEq, Repr, Inhabited

namespace R1C

/-- The constraint of three empty expressions (`R1C.default`, to which `clear` resets). -/
def empty : R1C := ⟨[], [], []⟩

/-- All terms, those of `l` first and those of `o` last (`R1C.terms`). -/
def terms (c : R1C) : List Term := c.l ++ c.r ++ c.o

/-- The constraint in words (`R1C.display`). -/
def display (c : R1C) (names : Resolver) : String :=
  names.expr c.l ++ " ⋅ " ++ names.expr c.r ++ " == " ++ names.expr c.o

end R1C

end CircuitWitness
