import CircuitWitness.Blueprint.Encoding
import CircuitWitness.Circuit.Levels
import CircuitWitness.Constraint.Coefficients
import CircuitWitness.Log.Entry
import CircuitWitness.Log.Symbols

/-!
# Circuits

A circuit is a list of instructions, packed into call data, with all that is needed to read them:
coefficients, blueprints, names of the inputs, levels and descriptions. Its wires are the public
inputs, then the secret inputs, then the internal wires. A circuit of rank-one constraints has
the constant one as its first public wire.

Here and in the other modules the description of a definition names in parentheses what it models.
-/

namespace CircuitWitness

/-- The kind of constraints of a circuit (`SystemKind`). -/
inductive CircuitKind where
  /-- Rank-one constraints, with a wire that holds one. -/
  | r1cs
  /-- Gates, without such a wire. -/
  | sparse
deriving DecidableEq, Repr

namespace CircuitKind

/-- The kind in words (as `SystemKind` is printed). -/
def name : CircuitKind → String
  | .r1cs => "R1cs"
  | .sparse => "SparseR1cs"

/-- The tag of the written form (in `serialize` of `SystemKind`). -/
def tag : CircuitKind → UInt8
  | .r1cs => 0
  | .sparse => 1

/-- A kind, by its tag (`serialize` and `deserialize` of `SystemKind`). -/
def codec : Codec CircuitKind := .tagged .systemKind tag [.r1cs, .sparse]

/-- Whether a circuit may hold instructions of a kind (the `allowed` of `check_blueprint` and
    `validate`). -/
def allows : CircuitKind → InstructionKind → Bool
  | .r1cs, .gate => false
  | .sparse, .r1c => false
  | _, _ => true

/-- Whether a term is a constant: in rank-one constraints, if it stands on the wire of one
    (`is_constant_term`). -/
def isConstant : CircuitKind → Term → Bool
  | .r1cs, t => t.isConstant
  | .sparse, _ => false

end CircuitKind

/-- An instruction: its blueprint, the constraint that it stands for or comes before, and where its
    words start (`Instruction`). -/
structure Instruction where
  blueprint : BlueprintId
  constraint : UInt32
  start : UInt64
deriving DecidableEq, Repr, Inhabited

/-- Blueprint, constraint, start (`serialize` and `deserialize` of `Instruction`). -/
def Instruction.codec : Codec Instruction :=
  (Codec.pair .u32 (.pair .u32 .u64)).imap (fun (b, c, s) => ⟨b, c, s⟩)
    (fun i => (i.blueprint, i.constraint, i.start))

/-- A constraint system with its hints (`System`). -/
structure Circuit (F : PrimeField) where
  kind : CircuitKind
  coeffs : CoeffTable F
  blueprints : List Blueprint
  instructions : List Instruction
  callData : CallData
  publicNames : List String
  secretNames : List String
  internalCount : Nat
  constraintCount : Nat
  levels : Levels
  /-- Descriptions of constraints, to which `descriptionOf` leads. -/
  descriptions : List LogEntry
  descriptionOf : OrderedMap UInt32 UInt32
  logs : List LogEntry
  symbols : SymbolTable
  /-- The names of the hints that are used, by id. -/
  hintNames : OrderedMap HintId String

namespace Circuit

variable {F : PrimeField}

/-- The name of the wire that holds one (`ONE_WIRE_NAME`). -/
def oneName : String := "1"

/-- The circuit without instructions (`System.new`). -/
def empty (F : PrimeField) (kind : CircuitKind) : Circuit F where
  kind
  coeffs := .empty
  blueprints := []
  instructions := []
  callData := []
  publicNames :=
    match kind with
    | .r1cs => [oneName]
    | .sparse => []
  secretNames := []
  internalCount := 0
  constraintCount := 0
  levels := .empty
  descriptions := []
  descriptionOf := .empty
  logs := []
  symbols := .empty
  hintNames := .empty

instance : Inhabited (Circuit F) := ⟨empty F .r1cs⟩

/-! ## Counts -/

/-- The number of wires that are known before solving (`nb_inputs`). -/
def inputCount (c : Circuit F) : Nat := c.publicNames.length + c.secretNames.length

/-- The number of wires (`nb_wires`). -/
def wireCount (c : Circuit F) : Nat := c.inputCount + c.internalCount

/-- The number of values that the solver must be given: all inputs but the constant one
    (`witness_len`). -/
def witnessLength (c : Circuit F) : Nat :=
  match c.kind with
  | .r1cs => c.inputCount - 1
  | .sparse => c.inputCount

end Circuit

end CircuitWitness
