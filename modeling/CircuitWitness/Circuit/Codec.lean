import CircuitWitness.Circuit.Build
import CircuitWitness.Field.Codec

/-!
# Written form of a circuit

Magic bytes, version, kind and field come first, then the parts one after the other. The level of
each wire is not written; it follows from the instructions and the schedule. A circuit that was
read has passed all checks that building one makes: operands are in range, constraints are
numbered in order, levels hold each instruction once.
-/

namespace CircuitWitness.Circuit

variable {F : PrimeField}

/-- The bytes that every written circuit starts with (`MAGIC`). -/
def magic : Bytes := [0x5A, 0x4B, 0x43, 0x53]

/-- The version of the written form (`SERIALIZATION_VERSION`). -/
def version : UInt32 := 1

/-! ## Writing -/

/-- The items of a circuit (`serialize` of `System`). -/
def pieces (c : Circuit F) : List Piece :=
  [Piece.bytes magic]
    ++ Codec.u32.pieces version
    ++ CircuitKind.codec.pieces c.kind
    ++ F.headerCodec.pieces ()
    ++ F.elemsCodec.pieces c.coeffs.toList
    ++ (Codec.list Blueprint.codec).pieces c.blueprints
    ++ (Codec.list Instruction.codec).pieces c.instructions
    ++ (Codec.list .u32).pieces c.callData
    ++ (Codec.list .string).pieces c.publicNames
    ++ (Codec.list .string).pieces c.secretNames
    ++ Codec.size.pieces c.internalCount
    ++ Codec.size.pieces c.constraintCount
    ++ (Codec.list (.list .u32)).pieces c.levels.schedule
    ++ (Codec.list LogEntry.codec).pieces c.descriptions
    ++ (Codec.map .u32 .u32).pieces c.descriptionOf
    ++ (Codec.list LogEntry.codec).pieces c.logs
    ++ SymbolTable.codec.pieces c.symbols
    ++ (Codec.map .u32 .string).pieces c.hintNames

/-! ## Checks -/

/-- The rule that a refused operation breaks (in `validate`). -/
def ruleOf : Error → FormatRule
  | .wireOutOfRange _ _ => .wireInRange
  | .coeffOutOfRange _ _ => .coefficientInRange
  | _ => .callData

/-- Checks instructions in order, of which the first stands for constraint number `count`, and
    counts the constraints (the loop of `validate`). -/
def checkInstructions (c : Circuit F) : Nat → List Instruction → Except FormatRule Nat
  | count, [] => .ok count
  | count, i :: rest =>
    match c.blueprints[i.blueprint.toNat]? with
    | none => .error .blueprintId
    | some b =>
      if !c.kind.allows b.kind then .error .blueprintKind
      else if i.constraint.toNat ≠ count then .error .constraintOffset
      else
        match c.operationOf i >>= c.checkOperation with
        | .error e => .error (ruleOf e)
        | .ok _ => c.checkInstructions (count + b.constraintCount) rest

/-- Checks all but the levels (`validate`). -/
def validate (c : Circuit F) : Except FormatRule Unit := do
  if c.kind = .r1cs ∧ c.publicNames.head? ≠ some oneName then throw .oneWire
  let count ← c.checkInstructions 0 c.instructions
  if count ≠ c.constraintCount then throw .constraintCount
  if c.descriptionOf.entries.any fun (k, id) =>
      count ≤ k.toNat || c.descriptions.length ≤ id.toNat then
    throw .debugMap

/-- The circuit with the levels of a schedule, if all checks pass (the end of `deserialize` of
    `System`). -/
def checked (c : Circuit F) (schedule : List (List UInt32)) : Except FormatRule (Circuit F) := do
  c.validate
  match c.replay schedule with
  | .ok levels => return { c with levels }
  | .error _ => throw .levels

/-! ## Reading -/

/-- A value, or the rule that is broken. -/
def orBroken {α : Type} : Except FormatRule α → Decoder α
  | .ok x => pure x
  | .error rule => throw (.broken rule)

/-- Reads a circuit (`deserialize` of `System`). -/
def read : Decoder (Circuit F) := do
  let start ← Decoder.take magic.length
  Decoder.require .magic (start = magic)
  let v ← Codec.u32.read
  Decoder.require .version (v = version)
  let kind ← CircuitKind.codec.read
  F.headerCodec.read
  let elements ← F.elemsCodec.read
  let coeffs ← orBroken ((CoeffTable.ofList elements).mapError fun _ => .coefficientTable)
  let blueprints ← (Codec.list Blueprint.codec).read
  let instructions ← (Codec.list Instruction.codec).read
  let callData ← (Codec.list .u32).read
  let publicNames ← (Codec.list .string).read
  let secretNames ← (Codec.list .string).read
  let internalCount ← Codec.size.read
  let constraintCount ← Codec.size.read
  let schedule ← (Codec.list (.list .u32)).read
  let descriptions ← (Codec.list LogEntry.codec).read
  let descriptionOf ← (Codec.map .u32 .u32).read
  let logs ← (Codec.list LogEntry.codec).read
  let symbols ← SymbolTable.codec.read
  let hintNames ← (Codec.map .u32 .string).read
  let c : Circuit F :=
    { kind, coeffs, blueprints, instructions, callData, publicNames, secretNames, internalCount,
      constraintCount, levels := .empty, descriptions, descriptionOf, logs, symbols, hintNames }
  orBroken (c.checked schedule)

/-- The written form of circuits over a field (`serialize` and `deserialize` of `System`). -/
def codec (F : PrimeField) : Codec (Circuit F) := ⟨pieces, read⟩

/-- Why bytes are no circuit, and how many of them were consumed before (`ReadError`). -/
structure ReadError where
  offset : Nat
  cause : DecodeError
deriving DecidableEq, Repr

/-- The error in words. -/
def ReadError.message (e : ReadError) : String :=
  s!"failed to read constraint system at byte {e.offset}: {e.cause.message}"

/-- The bytes of a circuit (`to_bytes`). -/
def toBytes (c : Circuit F) : Except EncodeError Bytes :=
  match (codec F).encode none c with
  | (bytes, none) => .ok bytes
  | (_, some e) => .error e

/-- The circuit whose written form the bytes are, to the last byte (`read_from`). -/
def ofBytes (bytes : Bytes) : Except ReadError (Circuit F) :=
  match (codec F).decode bytes with
  | .ok c [] => .ok c
  | .ok _ rest => .error ⟨bytes.length - rest.length, .broken .noTrailingBytes⟩
  | .error e rest => .error ⟨bytes.length - rest.length, e⟩

end CircuitWitness.Circuit
