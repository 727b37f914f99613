import CircuitWitness.Solver.State

/-!
# Solving a rank-one constraint

The solved terms of each expression are summed up. At most one term may stand on an unsolved
wire. Its value follows from the other two sums; if the other factor of the product is zero the
term has no influence, and it is taken to be zero if the constraint can hold at all. The wire gets
the value of the term divided by its coefficient.
-/

namespace CircuitWitness.Solver

variable {F : PrimeField}

/-- One of the three expressions of a constraint (`Side`). -/
inductive Side where
  | l
  | r
  | o
deriving DecidableEq, Repr

/-- Adds to the value of one side (in `solve_r1c`). -/
def Row.add (row : Row F) (side : Side) (x : F.Elem) : Row F :=
  match side with
  | .l => { row with a := row.a + x }
  | .r => { row with b := row.b + x }
  | .o => { row with c := row.c + x }

/-- What is known of a constraint: the sums of its solved terms, and the term that is not (the `acc`
    and `unknown` of `solve_r1c`). -/
structure Partial (F : PrimeField) where
  row : Row F
  unknown : Option (Side × Term)

/-- Nothing summed up (in `solve_r1c`). -/
def Partial.blank : Partial F := ⟨⟨0, 0, 0⟩, none⟩

/-- Takes one more term into account (the inner loop of `solve_r1c`). -/
def scanTerm (c : Circuit F) (constraint : UInt32) (side : Side) (p : Partial F) (t : Term) :
    Solve F (Partial F) := do
  if ← isSolved t.wire then
    let x ← termValue c t
    return { p with row := p.row.add side x }
  if p.unknown.isSome then fail (.multipleUnsolved constraint)
  return { p with unknown := some (side, t) }

/-- Takes all terms of a constraint into account (the loops of `solve_r1c`). -/
def scan (c : Circuit F) (constraint : UInt32) (r : R1C) : Solve F (Partial F) := do
  let p ← r.l.foldlM (scanTerm c constraint .l) .blank
  let p ← r.r.foldlM (scanTerm c constraint .r) p
  r.o.foldlM (scanTerm c constraint .o) p

/-- The value that a missing term on one side must have, given the sums of the others; none if no
    value will do (the cases by side in `solve_r1c`). -/
def Row.missing? (row : Row F) : Side → Option F.Elem
  | .l =>
    match row.b.inverse? with
    | some i => some (row.c * i - row.a)
    | none => if row.c = 0 then some 0 else none
  | .r =>
    match row.a.inverse? with
    | some i => some (row.c * i - row.b)
    | none => if row.c = 0 then some 0 else none
  | .o => some (row.a * row.b - row.c)

/-- The value of a wire, from that of its term (`div_by_coeff`). -/
def wireOfTerm (x : F.Elem) (id : CoeffId) (q : F.Elem) : Solve F F.Elem :=
  if id = CoeffId.one then pure x
  else if id = CoeffId.minusOne then pure (-x)
  else if id = CoeffId.zero then fail .divisionByZeroCoeff
  else
    match q.inverse? with
    | some i => pure (x * i)
    | none => fail .divisionByZeroCoeff

/-- Notes the values of the expressions of a constraint (`record_abc`). -/
def record (constraint : UInt32) (row : Row F) : Solve F Unit := do
  let s ← get
  match s.rows[constraint.toNat]? with
  | some none => set { s with rows := s.rows.set constraint.toNat (some row) }
  | some (some _) => fail (.malformed constraint .solvedTwice)
  | none => fail (.malformed constraint .unknownConstraint)

/-- Solves or checks a constraint (`solve_r1c`). -/
def solveR1C (c : Circuit F) (constraint : UInt32) (r : R1C) : Solve F Unit := do
  let p ← scan c constraint r
  let row := p.row
  match p.unknown with
  | none =>
    if row.a * row.b ≠ row.c then unsatisfied c constraint (.product row.a row.b row.c)
    record constraint row
  | some (side, t) =>
    match row.missing? side with
    | none => unsatisfied c constraint (.product row.a row.b row.c)
    | some x =>
      let q ← coeff c t.coeff
      let wireValue ← wireOfTerm x t.coeff q
      assign t.wire wireValue
      record constraint (row.add side x)

end CircuitWitness.Solver
