import CircuitWitness.Text.Utf8

/-!
# What can go wrong with bytes

Writing fails when the buffer is full or a length has no four-byte form. Reading fails when bytes
are missing, a tag is unknown, bytes are no text, or what was read breaks a rule of the format.
-/

namespace CircuitWitness

/-- Why a value was not written completely (the cases of `SerializationError` that writing has). -/
inductive EncodeError where
  /-- The next item does not fit into the buffer. -/
  | bufferFull
  /-- A length or count has more than 32 bits. -/
  | sizeTooLarge (size : Nat)
deriving DecidableEq, Repr

/-- The types that are written as a one-byte tag (the names of `UnknownEnumVariant`). -/
inductive TaggedType where
  | bool
  | blueprint
  | systemKind
deriving DecidableEq, Repr

/-- The rules that what was read may break (the names of `InvalidConstruction`). -/
inductive FormatRule where
  | distinctKeys
  | canonicalElement
  | sameModulus
  | knownFunctions
  | magic
  | version
  | coefficientTable
  | oneWire
  | blueprintId
  | blueprintKind
  | constraintOffset
  | wireInRange
  | coefficientInRange
  | callData
  | constraintCount
  | debugMap
  | levels
  | noTrailingBytes
deriving DecidableEq, Repr

/-- Why bytes were not read (the cases of `SerializationError` that reading has). -/
inductive DecodeError where
  | endOfInput
  | unknownTag (type : TaggedType) (tag : UInt8)
  | badText (fault : Utf8.Fault)
  | broken (rule : FormatRule)
deriving DecidableEq, Repr

/-! ## Messages -/

/-- The error in words. -/
def EncodeError.message : EncodeError → String
  | .bufferFull => "Write buffer is full"
  | .sizeTooLarge size => s!"usize {size} is too large to serialize (max is 4294967295)"

/-- The type in words. -/
def TaggedType.name : TaggedType → String
  | .bool => "bool"
  | .blueprint => "Blueprint"
  | .systemKind => "SystemKind"

/-- The rule in words. -/
def FormatRule.name : FormatRule → String
  | .distinctKeys => "BTreeMap::duplicate_key"
  | .canonicalElement => "Field::canonical"
  | .sameModulus => "Field::modulus"
  | .knownFunctions => "SymbolTable::locations"
  | .magic => "System::magic"
  | .version => "System::version"
  | .coefficientTable => "System::coefficients"
  | .oneWire => "System::one_wire"
  | .blueprintId => "System::blueprint_id"
  | .blueprintKind => "System::blueprint_kind"
  | .constraintOffset => "System::constraint_offset"
  | .wireInRange => "System::wire"
  | .coefficientInRange => "System::coefficient"
  | .callData => "System::call_data"
  | .constraintCount => "System::nb_constraints"
  | .debugMap => "System::debug_map"
  | .levels => "System::levels"
  | .noTrailingBytes => "System::trailing_bytes"

/-- The error in words. -/
def DecodeError.message : DecodeError → String
  | .endOfInput => "Not enough data in read buffer to deserialize"
  | .unknownTag type tag => s!"Unknown enum variant index {type.name}::{tag.toNat}"
  | .badText fault => s!"FromUtf8Error: {fault.message}"
  | .broken rule => s!"Invalid construction of {rule.name}"

end CircuitWitness
