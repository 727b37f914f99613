import CircuitWitness.Codec.Basic
import CircuitWitness.OrderedMap

/-!
# The standard forms

Numbers are little-endian; sizes are four bytes; lists, texts and maps carry their size in front.
A map is written by increasing key. When it is read its entries may come in any order, but no key
twice.

Results:
* `length_littleEndian`: a number takes the bytes asked for.
* `ofLittleEndian_littleEndian`: reading them gives the number modulo the range.
-/

namespace CircuitWitness

/-! ## Little-endian numbers -/

/-- The `k` lowest bytes of a number, lowest first. -/
def littleEndian : Nat → Nat → Bytes
  | 0, _ => []
  | k + 1, n => UInt8.ofNat (n % 256) :: littleEndian k (n / 256)

/-- The number with the given bytes, lowest first. -/
def ofLittleEndian : Bytes → Nat
  | [] => 0
  | b :: rest => b.toNat + 256 * ofLittleEndian rest

@[simp] theorem length_littleEndian (k n : Nat) : (littleEndian k n).length = k := by
  induction k generalizing n with
  | zero => rfl
  | succ k ih => simp [littleEndian, ih]

theorem ofLittleEndian_littleEndian (k n : Nat) :
    ofLittleEndian (littleEndian k n) = n % Nat.pow 256 k := by
  induction k generalizing n with
  | zero => simp [littleEndian, ofLittleEndian, Nat.mod_one]
  | succ k ih =>
    have low : (UInt8.ofNat (n % 256)).toNat = n % 256 := by
      rw [UInt8.toNat_ofNat']; exact Nat.mod_mod _ _
    rw [littleEndian, ofLittleEndian, ih, low, Nat.pow_eq, Nat.pow_eq, Nat.pow_succ', Nat.mod_mul]

/-- The number of values of four bytes. -/
def wordRange : Nat := 4294967296

namespace Codec

variable {α κ : Type}

/-! ## Numbers and tags -/

/-- A number of `k` bytes. -/
def number (k : Nat) (toNat : α → Nat) (ofNat : Nat → α) : Codec α where
  pieces x := [.bytes (littleEndian k (toNat x))]
  read := do
    let bs ← Decoder.take k
    return ofNat (ofLittleEndian bs)

/-- A number of one byte (`impl_serialize_uint`). -/
def u8 : Codec UInt8 := number 1 UInt8.toNat UInt8.ofNat

/-- A number of two bytes (`impl_serialize_uint`). -/
def u16 : Codec UInt16 := number 2 UInt16.toNat UInt16.ofNat

/-- A number of four bytes (`impl_serialize_uint`). -/
def u32 : Codec UInt32 := number 4 UInt32.toNat UInt32.ofNat

/-- A number of eight bytes (`impl_serialize_uint`). -/
def u64 : Codec UInt64 := number 8 UInt64.toNat UInt64.ofNat

/-- A size or count, in four bytes (`serialize` and `deserialize` of sizes). -/
def size : Codec Nat where
  pieces n := if n < wordRange then [.bytes (littleEndian 4 n)] else [.overlong n]
  read := do
    let bs ← Decoder.take 4
    return ofLittleEndian bs

/-- A choice among `all`, by a one-byte tag. -/
def tagged (type : TaggedType) (tag : α → UInt8) (all : List α) : Codec α where
  pieces x := u8.pieces (tag x)
  read := do
    let index ← u8.read
    match all.find? (fun x => tag x = index) with
    | some x => return x
    | none => throw (.unknownTag type index)

/-- A truth value, as the tag `0` or `1` (`serialize` and `deserialize` of truth values). -/
def bool : Codec Bool := tagged .bool (fun b => if b then 1 else 0) [false, true]

/-! ## Text, lists and maps -/

/-- The bytes of the text, with their number in front (`serialize` and `deserialize` of texts). -/
def string : Codec String where
  pieces s := size.pieces (Utf8.encode s).length ++ [.bytes (Utf8.encode s)]
  read := do
    let n ← size.read
    let bs ← Decoder.take n
    match Utf8.decode bs with
    | .ok s => return s
    | .error fault => throw (.badText fault)

/-- The entries, with their number in front (`serialize` and `deserialize` of lists). -/
def list (c : Codec α) : Codec (List α) where
  pieces l := size.pieces l.length ++ l.flatMap c.pieces
  read := do
    let n ← size.read
    Decoder.replicate n c.read

section

variable [LE κ] [LT κ] [DecidableLT κ] [DecidableEq κ] [Std.IsLinearOrder κ]
  [Std.LawfulOrderLT κ]

/-- Reads `n` entries into a map that has none of their keys (the loop of `deserialize` of maps). -/
def readEntries (entry : Decoder (κ × α)) : Nat → OrderedMap κ α → Decoder (OrderedMap κ α)
  | 0, m => pure m
  | n + 1, m => do
    let (k, v) ← entry
    Decoder.require .distinctKeys (!m.contains k)
    readEntries entry n (m.insert k v)

/-- The entries by increasing key, with their number in front (`serialize` and `deserialize` of
    maps). -/
def map (key : Codec κ) (value : Codec α) : Codec (OrderedMap κ α) where
  pieces m := (list (pair key value)).pieces m.entries
  read := do
    let n ← size.read
    readEntries (pair key value).read n .empty

end

end Codec

end CircuitWitness
