import CircuitWitness.Circuit.Basic
import CircuitWitness.Field.Codec

/-!
# Solutions

The assignment `w` of all wires, with the columns that a prover needs. For rank-one constraints
these are the values of the three expressions of each constraint. For gates they are the values
of the three operands of each gate, after one row for each public input, and filled up to a power
of two.

Results:
* `le_powerOfTwoFrom`: the number of rows holds all that is put into them.
-/

namespace CircuitWitness

variable {F : PrimeField}

/-- The solution of a circuit of rank-one constraints (`R1csSolution`). -/
structure R1csSolution (F : PrimeField) where
  w : List F.Elem
  a : List F.Elem
  b : List F.Elem
  c : List F.Elem
deriving DecidableEq

/-- The solution of a circuit of gates (`SparseR1csSolution`). -/
structure SparseSolution (F : PrimeField) where
  w : List F.Elem
  l : List F.Elem
  r : List F.Elem
  o : List F.Elem
deriving DecidableEq

/-- The solution of a circuit (`SolverOutput`). -/
inductive Solution (F : PrimeField) where
  | r1cs (s : R1csSolution F)
  | sparse (s : SparseSolution F)
deriving DecidableEq

namespace Solution

/-- The kind of circuit that was solved (`SolverOutput.kind`). -/
def kind : Solution F → CircuitKind
  | .r1cs _ => .r1cs
  | .sparse _ => .sparse

/-- The values of all wires (`SolverOutput.witness`). -/
def witness : Solution F → List F.Elem
  | .r1cs s => s.w
  | .sparse s => s.w

end Solution

/-! ## Columns of gates -/

/-- The least power of two that is not below `n`. -/
def powerOfTwoFrom (n : Nat) : Nat := if n ≤ 1 then 1 else Nat.pow 2 ((n - 1).log2 + 1)

theorem le_powerOfTwoFrom (n : Nat) : n ≤ powerOfTwoFrom n := by
  unfold powerOfTwoFrom
  split
  · assumption
  · have := Nat.lt_log2_self (n := n - 1)
    rw [Nat.pow_eq]
    omega

/-- A column: the given entries, filled up (the `resize` in `SparseR1csSolution.new`). -/
def fillUp (rows : Nat) (pad : F.Elem) (entries : List F.Elem) : List F.Elem :=
  entries ++ List.replicate (rows - entries.length) pad

/-- The solution with the assignment `w` for the given gates (`SparseR1csSolution.new`). An operand
    that is no wire counts as the first wire, and so do the empty places. -/
def SparseSolution.ofAssignment (w : List F.Elem) (publicCount : Nat) (gates : List Gate) :
    SparseSolution F :=
  let rows := powerOfTwoFrom (publicCount + gates.length)
  let pad := w.head?.getD 0
  let entry (x : WireId) : F.Elem := w[x.toNat]?.getD pad
  let inputs := w.take publicCount
  let pads := inputs.map fun _ => pad
  { w
    l := fillUp rows pad (inputs ++ gates.map (entry ·.xa))
    r := fillUp rows pad (pads ++ gates.map (entry ·.xb))
    o := fillUp rows pad (pads ++ gates.map (entry ·.xc)) }

/-! ## Written forms -/

/-- Four lists of elements. -/
def fourColumns (F : PrimeField) :
    Codec (List F.Elem × List F.Elem × List F.Elem × List F.Elem) :=
  .pair F.elemsCodec (.pair F.elemsCodec (.pair F.elemsCodec F.elemsCodec))

/-- The columns `w`, `a`, `b`, `c` (`serialize` and `deserialize` of `R1csSolution`). -/
def R1csSolution.codec (F : PrimeField) : Codec (R1csSolution F) :=
  (fourColumns F).imap (fun (w, a, b, c) => ⟨w, a, b, c⟩) (fun s => (s.w, s.a, s.b, s.c))

/-- The columns `w`, `l`, `r`, `o` (`serialize` and `deserialize` of `SparseR1csSolution`). -/
def SparseSolution.codec (F : PrimeField) : Codec (SparseSolution F) :=
  (fourColumns F).imap (fun (w, l, r, o) => ⟨w, l, r, o⟩) (fun s => (s.w, s.l, s.r, s.o))

/-- The items of a solution. -/
def Solution.pieces : Solution F → List Piece
  | .r1cs s => (R1csSolution.codec F).pieces s
  | .sparse s => (SparseSolution.codec F).pieces s

end CircuitWitness
