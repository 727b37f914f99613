import CircuitWitness.Codec.Standard

/-!
# Blueprints

Every instruction of a system keeps its operands as a range of words in a shared buffer. A
blueprint names the layout of that range. Two layouts carry their length in the first word, the
others have a fixed one.
-/

namespace CircuitWitness

/-- What an instruction stands for (`BlueprintKind`). -/
inductive InstructionKind where
  | r1c
  | gate
  | hint
deriving DecidableEq, Repr

/-- The kind in words (as `BlueprintKind` is printed). -/
def InstructionKind.name : InstructionKind → String
  | .r1c => "R1C"
  | .gate => "SparseR1C"
  | .hint => "Hint"

/-- The layouts of call data (`Blueprint`). -/
inductive Blueprint where
  /-- `[total, length l, length r, terms of l, terms of r, terms of o]` -/
  | genericR1C
  /-- `[xa, xb, xc, ql, qr, qo, qm, qc, commitment]` -/
  | genericGate
  /-- `[qm, xa, xb, xc]` for `qm⋅xa⋅xb - xc = 0` -/
  | mul
  /-- `[xa, xb, xc, ql, qr, qc]` for `ql⋅xa + qr⋅xb + qc - xc = 0` -/
  | add
  /-- `[xa, ql, qm]` for `ql⋅xa + qm⋅xa⋅xa = 0` -/
  | bool
  /-- `[total, hint, number of inputs, each input with its length in front, outputs]` -/
  | genericHint
deriving DecidableEq, Repr

/-- The place of a blueprint in a system (`BlueprintId`). -/
abbrev BlueprintId := UInt32

/-- A buffer of words that holds the operands of instructions (the `call_data` of a `System`). -/
abbrev CallData := List UInt32

namespace Blueprint

/-- The blueprint in words (as `Blueprint` is printed). -/
def name : Blueprint → String
  | .genericR1C => "GenericR1C"
  | .genericGate => "GenericSparseR1C"
  | .mul => "SparseR1CMul"
  | .add => "SparseR1CAdd"
  | .bool => "SparseR1CBool"
  | .genericHint => "GenericHint"

/-- All blueprints, by tag (`Blueprint.ALL`). -/
def all : List Blueprint := [.genericR1C, .genericGate, .mul, .add, .bool, .genericHint]

/-- The tag of the written form (`Blueprint.tag`). -/
def tag : Blueprint → UInt8
  | .genericR1C => 0
  | .genericGate => 1
  | .mul => 2
  | .add => 3
  | .bool => 4
  | .genericHint => 5

/-- A blueprint, by its tag (`serialize` and `deserialize` of `Blueprint`). -/
def codec : Codec Blueprint := .tagged .blueprint tag all

/-- What the instructions of the blueprint stand for (`Blueprint.kind`). -/
def kind : Blueprint → InstructionKind
  | .genericR1C => .r1c
  | .genericHint => .hint
  | .genericGate | .mul | .add | .bool => .gate

/-- The number of words, where it is fixed (`nb_inputs`, `GENERIC_LEN`, `MUL_LEN`, `ADD_LEN`,
    `BOOL_LEN`). -/
def fixedLength? : Blueprint → Option Nat
  | .genericGate => some 9
  | .mul => some 4
  | .add => some 6
  | .bool => some 3
  | .genericR1C | .genericHint => none

/-- The number of constraints of one instruction (`nb_constraints`). -/
def constraintCount (b : Blueprint) : Nat :=
  match b.kind with
  | .hint => 0
  | .r1c | .gate => 1

/-- Whether an instruction can be solved from its words in closed form (`is_solvable`). -/
def isSolvable : Blueprint → Bool
  | .mul | .add | .bool => true
  | .genericR1C | .genericGate | .genericHint => false

/-! ## Faults -/

/-- What a blueprint may be asked to do (`Capability`). -/
inductive Capability where
  | r1c
  | gate
  | hint
  | solve
deriving DecidableEq, Repr

/-- The capability in words (as `Capability` is printed). -/
def Capability.name : Capability → String
  | .r1c => "R1C encoding"
  | .gate => "sparse R1C encoding"
  | .hint => "hint encoding"
  | .solve => "direct solving"

/-- What is wrong with call data (the reasons of `MalformedCallData`). -/
inductive CallDataFault where
  | missingLength
  | rangeTooLong
  | startPastEnd
  | missingHeader
  | lengthMismatch
  | oddTermWords
  | expressionsTooLong
  | truncatedInput
  | wordCount
  | unknownCommitment
deriving DecidableEq, Repr

/-- The fault in words. -/
def CallDataFault.message : CallDataFault → String
  | .missingLength => "missing length prefix"
  | .rangeTooLong => "range exceeds the call data buffer"
  | .startPastEnd => "instruction starts past the call data buffer"
  | .missingHeader => "missing header"
  | .lengthMismatch => "length prefix does not match the range"
  | .oddTermWords => "odd number of term words"
  | .expressionsTooLong => "expression lengths exceed the range"
  | .truncatedInput => "truncated input"
  | .wordCount => "unexpected number of words"
  | .unknownCommitment => "unknown commitment tag"

/-- Why a gate has no form in a special layout (the reasons of `ShapeMismatch`). -/
inductive ShapeFault where
  | onlyProduct
  | outputNotMinusOne
  | commitmentGate
  | productSet
  | onlySquareAndLinear
  | notASquare
deriving DecidableEq, Repr

/-- The fault in words. -/
def ShapeFault.message : ShapeFault → String
  | .onlyProduct => "only the multiplicative term may be set"
  | .outputNotMinusOne => "output coefficient must be -1"
  | .commitmentGate => "commitment gates need the generic encoding"
  | .productSet => "multiplicative term must be zero"
  | .onlySquareAndLinear => "only qL and qM may be set"
  | .notASquare => "multiplicative term must square xa"

/-- Why a blueprint cannot do what it is asked (the `Error` of blueprints). -/
inductive Error where
  | unsupported (blueprint : Blueprint) (capability : Capability)
  | malformed (blueprint : Blueprint) (fault : CallDataFault)
  | shapeMismatch (blueprint : Blueprint) (fault : ShapeFault)
  | wordOverflow (blueprint : Blueprint) (value : Nat)
deriving DecidableEq, Repr

/-- The error in words. -/
def Error.message : Error → String
  | .unsupported b capability => s!"blueprint {b.name} does not support {capability.name}"
  | .malformed b fault => s!"malformed call data for blueprint {b.name}: {fault.message}"
  | .shapeMismatch b fault =>
    s!"constraint does not have the shape encoded by blueprint {b.name}: {fault.message}"
  | .wordOverflow b value =>
    s!"blueprint {b.name} cannot encode a value of {value} in a call data word"

/-! ## Ranges -/

/-- The number of words of the instruction that starts a buffer (`call_data_len`). -/
def callDataLength (b : Blueprint) (words : CallData) : Except Error Nat := do
  let length ←
    match b.fixedLength?, words with
    | some n, _ => pure n
    | none, total :: _ => pure total.toNat
    | none, [] => throw (.malformed b .missingLength)
  if length = 0 ∨ words.length < length then throw (.malformed b .rangeTooLong)
  return length

/-! ## Appending -/

/-- Appends to a buffer of words; on failure the buffer is what it is then. -/
abbrev Writer := EStateM Error CallData

/-- Appends words. -/
def append (words : List UInt32) : Writer Unit := modify (· ++ words)

/-- Appends a length, which must fit into a word (`word`). -/
def appendLength (b : Blueprint) (n : Nat) : Writer Unit :=
  if n < wordRange then append [UInt32.ofNat n] else throw (.wordOverflow b n)

end Blueprint

end CircuitWitness
