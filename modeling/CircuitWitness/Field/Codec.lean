import CircuitWitness.Codec.Standard
import CircuitWitness.Field.Basic

/-!
# Written form of field elements

An element is one item: its representative in as many bytes as the modulus needs. Only the
canonical representative is read back. A list of elements is refused at once when the bytes left
cannot hold it. The modulus header guards against reading with another field; zero bytes after
its last digit do not matter.
-/

namespace CircuitWitness.PrimeField

variable {F : PrimeField}

/-- The element with a representative, which must be below the modulus (the check of
    `deserialize_element`). -/
def Elem.ofCanonical? (n : Nat) : Option F.Elem := if h : n < F.modulus then some ⟨n, h⟩ else none

/-- One element (`serialize_element`, `deserialize_element`). -/
def elemCodec (F : PrimeField) : Codec F.Elem where
  pieces x := [.bytes (littleEndian F.byteLen x.val)]
  read := do
    let bs ← Decoder.take F.byteLen
    match Elem.ofCanonical? (ofLittleEndian bs) with
    | some x => return x
    | none => throw (.broken .canonicalElement)

/-- A list of elements (`serialize_elements`, `deserialize_elements`). -/
def elemsCodec (F : PrimeField) : Codec (List F.Elem) where
  pieces := (Codec.list F.elemCodec).pieces
  read := do
    let n ← Codec.size.read
    let left ← Decoder.remaining
    if left / F.byteLen < n then throw .endOfInput
    Decoder.replicate n F.elemCodec.read

/-- The header that names the field (`serialize_modulus`, `check_modulus`). -/
def headerCodec (F : PrimeField) : Codec Unit where
  pieces _ := (Codec.list Codec.u8).pieces (littleEndian F.byteLen F.modulus)
  read := do
    let bs ← (Codec.list Codec.u8).read
    Decoder.require .sameModulus (ofLittleEndian bs = F.modulus)

end CircuitWitness.PrimeField
