import CircuitWitness.Proofs.Field.Ring
import CircuitWitness.Solver.State

/-!
# Constraints under an assignment

An assignment gives a value to every wire. Under it every expression has a value, and a constraint
holds or does not hold, without any order in which the wires were found. A place that does not
exist, of a wire or a coefficient, counts as zero.

Results:
* `exprOn_append`: an expression is the sum of its terms.
* `termOn_zero`: a term with the zero entry has the value zero.
-/

namespace CircuitWitness

variable {F : PrimeField}

/-- The value of a wire under an assignment. -/
def wireOn (w : List F.Elem) (x : WireId) : F.Elem := w[x.toNat]?.getD 0

theorem wireOn_eq {w : List F.Elem} {x : WireId} {a : F.Elem} (h : w[x.toNat]? = some a) :
    wireOn w x = a := by
  simp [wireOn, h]

namespace Circuit

variable (c : Circuit F)

/-- The coefficient with an id. -/
def coeffOn (id : CoeffId) : F.Elem := (c.coeffs.get? id).getD 0

/-- The value of a term under an assignment. -/
def termOn (w : List F.Elem) (t : Term) : F.Elem := c.coeffOn t.coeff * wireOn w t.wire

/-- The value of an expression under an assignment. -/
def exprOn (w : List F.Elem) (e : LinearExpr) : F.Elem := (e.map (c.termOn w)).sum

/-- The values of the three expressions of a rank-one constraint. -/
def rowOn (w : List F.Elem) (r : R1C) : Solver.Row F :=
  ⟨c.exprOn w r.l, c.exprOn w r.r, c.exprOn w r.o⟩

/-- The left side of a gate for given operands. -/
def gateAt (g : Gate) (l r o : F.Elem) : F.Elem :=
  c.coeffOn g.ql * l + c.coeffOn g.qr * r + c.coeffOn g.qo * o + c.coeffOn g.qm * l * r
    + c.coeffOn g.qc

/-- The left side of a gate under an assignment. -/
def gateOn (w : List F.Elem) (g : Gate) : F.Elem :=
  c.gateAt g (wireOn w g.xa) (wireOn w g.xb) (wireOn w g.xc)

/-- A call is respected: the registry has the hint, it gives outputs for the values of the inputs,
    and the output wires hold their classes. -/
def HintHolds (hints : HintRegistry) (w : List F.Elem) (h : HintCall) : Prop :=
  ∃ hint outputs, hints.find? h.hint = some hint ∧
    hint.function.outputs F.modulus (h.inputs.map fun e => (c.exprOn w e).val) h.outputs.length
      = .ok outputs ∧
    h.outputs.map (fun x => w[x.toNat]?) = outputs.map fun n => some (.ofNat n)

/-! ## Coefficients -/

theorem coeffOn_eq {c : Circuit F} {id : CoeffId} {q : F.Elem} (h : c.coeffs.get? id = some q) :
    c.coeffOn id = q := by
  simp [coeffOn, h]

@[simp] theorem coeffOn_zero : c.coeffOn CoeffId.zero = 0 := by simp [coeffOn]

@[simp] theorem coeffOn_one : c.coeffOn CoeffId.one = 1 := by simp [coeffOn]

@[simp] theorem coeffOn_two : c.coeffOn CoeffId.two = .ofNat 2 := by simp [coeffOn]

@[simp] theorem coeffOn_minusOne : c.coeffOn CoeffId.minusOne = -1 := by simp [coeffOn]

theorem get?_coeffOn {c : Circuit F} {q : CoeffId} (h : q.toNat < c.coeffs.size) :
    c.coeffs.get? q = some (c.coeffOn q) := by
  have found : c.coeffs.get? q = some c.coeffs.toList[q.toNat] := List.getElem?_eq_getElem h
  rw [coeffOn_eq found, found]

/-! ## Expressions -/

theorem termOn_zero (w : List F.Elem) {t : Term} (h : t.isZero) : c.termOn w t = 0 := by
  have : t.coeff = CoeffId.zero := by simpa [Term.isZero] using h
  simp [termOn, this]

@[simp] theorem exprOn_nil (w : List F.Elem) : c.exprOn w [] = 0 := rfl

@[simp] theorem exprOn_cons (w : List F.Elem) (t : Term) (e : LinearExpr) :
    c.exprOn w (t :: e) = c.termOn w t + c.exprOn w e := by
  simp [exprOn]

theorem exprOn_append (w : List F.Elem) (e e' : LinearExpr) :
    c.exprOn w (e ++ e') = c.exprOn w e + c.exprOn w e' := by
  simp [exprOn]

end Circuit

end CircuitWitness
