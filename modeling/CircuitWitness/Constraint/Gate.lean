import CircuitWitness.Constraint.Resolver

/-!
# Gates

The constraint `ql⋅xa + qr⋅xb + qo⋅xc + qm⋅xa⋅xb + qc = 0` over three wires. A wire takes part
only if one of its coefficients has another id than that of zero.

Results:
* `nodup_wires`: the wires of a gate are listed once each.
-/

namespace CircuitWitness

/-- What a gate has to do with a commitment (`CommitmentConstraint`). -/
inductive Commitment where
  /-- Nothing: the gate is solved and checked. -/
  | plain
  /-- It asserts a committed value; the solver passes over it. -/
  | asserts
  /-- It binds the value of the commitment; it is solved but not checked. -/
  | binds
deriving DecidableEq, Repr, Inhabited

namespace Commitment

/-- The tag as a word (in `compress_generic`). -/
def toWord : Commitment → UInt32
  | .plain => 0
  | .asserts => 1
  | .binds => 2

/-- The commitment with a tag, if there is one (`try_from` of `CommitmentConstraint`). -/
def ofWord? (w : UInt32) : Option Commitment :=
  if w = 0 then some .plain
  else if w = 1 then some .asserts
  else if w = 2 then some .binds
  else none

theorem ofWord?_eq_some_iff {w : UInt32} {c : Commitment} : ofWord? w = some c ↔ w = c.toWord := by
  constructor
  · intro h
    unfold ofWord? at h
    split at h
    · cases c <;> simp_all [toWord]
    · split at h
      · cases c <;> simp_all [toWord]
      · split at h
        · cases c <;> simp_all [toWord]
        · simp at h
  · rintro rfl
    cases c <;> rfl

end Commitment

/-- A gate: three wires, five coefficients and a commitment tag (`SparseR1C`). -/
structure Gate where
  xa : WireId
  xb : WireId
  xc : WireId
  ql : CoeffId
  qr : CoeffId
  qo : CoeffId
  qm : CoeffId
  qc : CoeffId
  commitment : Commitment
deriving DecidableEq, Repr, Inhabited

namespace Gate

/-- The gate of zeros (`SparseR1C.default`, to which `clear` resets). -/
def empty : Gate := ⟨0, 0, 0, 0, 0, 0, 0, 0, .plain⟩

/-- Whether `xa` takes part (`uses_xa`). -/
def usesA (g : Gate) : Bool := g.ql ≠ CoeffId.zero || g.qm ≠ CoeffId.zero

/-- Whether `xb` takes part (`uses_xb`). -/
def usesB (g : Gate) : Bool := g.qr ≠ CoeffId.zero || g.qm ≠ CoeffId.zero

/-- Whether `xc` takes part (`uses_xc`). -/
def usesC (g : Gate) : Bool := g.qo ≠ CoeffId.zero

/-- The wires that take part, each at its first place among `xa`, `xb`, `xc` (`SparseR1C.wires`). -/
def wires (g : Gate) : List WireId :=
  let a := if g.usesA then [g.xa] else []
  let b := if g.usesB && !a.contains g.xb then [g.xb] else []
  let c := if g.usesC && !(a ++ b).contains g.xc then [g.xc] else []
  a ++ b ++ c

/-- The coefficients, in the order in which they are checked and read (in `add_sparse_r1c` and
    `check_instruction_operands`). -/
def coeffs (g : Gate) : List CoeffId := [g.ql, g.qr, g.qo, g.qm, g.qc]

/-- The gate in words (`SparseR1C.display`). The product is left out if its coefficient is the zero
    entry. -/
def display (g : Gate) (names : Resolver) : String :=
  let product :=
    if g.qm = CoeffId.zero then ""
    else " + " ++ names.coeffText g.qm ++ "⋅(" ++ names.wireText g.xa ++ "×"
      ++ names.wireText g.xb ++ ")"
  names.term ⟨g.ql, g.xa⟩ ++ " + " ++ names.term ⟨g.qr, g.xb⟩ ++ " + "
    ++ names.term ⟨g.qo, g.xc⟩ ++ product ++ " + " ++ names.coeffText g.qc ++ " == 0"

theorem nodup_wires (g : Gate) : g.wires.Nodup := by
  simp only [wires]
  split <;> split <;> split <;> simp_all [eq_comm (a := g.xa), eq_comm (a := g.xb) (b := g.xc)]

end Gate

end CircuitWitness
