import CircuitWitness.Codec.Error

/-!
# Writing items and reading them back

A value is written as a list of items, each of which goes into the buffer whole or not at all.
When an item does not fit, the items before it stay. Reading consumes bytes from the front; a
read that lacks bytes consumes none, and an item that is read and then refused stays consumed.

Results:
* `splitExactly_eq`: the first `n` bytes and the rest, if there are `n`.
* `emit_none`: without a bound, items without an overlong size are all written.
-/

namespace CircuitWitness

/-- A string of bytes. -/
abbrev Bytes := List UInt8

/-! ## Writing -/

/-- One item of a written value: bytes that belong together, or a size without written form. -/
inductive Piece where
  | bytes (bs : Bytes)
  | overlong (size : Nat)

/-- Whether `n` more bytes fit into a buffer with the given room (`assert_enough_space_for`). -/
def fits (room : Option Nat) (n : Nat) : Bool := room.all (n ≤ ·)

/-- Writes items into a buffer with the given room, `none` for a buffer that grows: what was
    written, and the failure that ended it. -/
def emit : Option Nat → List Piece → Bytes × Option EncodeError
  | _, [] => ([], none)
  | _, .overlong size :: _ => ([], some (.sizeTooLarge size))
  | room, .bytes bs :: rest =>
    if fits room bs.length then
      let (written, failure) := emit (room.map (· - bs.length)) rest
      (bs ++ written, failure)
    else ([], some .bufferFull)

/-- The bytes of the items up to the first overlong size. -/
def Piece.join : List Piece → Bytes
  | [] => []
  | .overlong _ :: _ => []
  | .bytes bs :: rest => bs ++ Piece.join rest

theorem emit_none (ps : List Piece) : (emit none ps).1 = Piece.join ps := by
  induction ps with
  | nil => rfl
  | cons p rest ih =>
    cases p with
    | overlong => rfl
    | bytes bs => simp [emit, fits, Piece.join, ih]

/-! ## Reading -/

/-- Reads a value from the front of the remaining bytes. -/
abbrev Decoder := EStateM DecodeError Bytes

/-- The first `n` entries and the rest, if there are `n`. -/
def splitExactly {α : Type} : Nat → List α → Option (List α × List α)
  | 0, l => some ([], l)
  | _ + 1, [] => none
  | n + 1, x :: l => (splitExactly n l).map fun (front, rest) => (x :: front, rest)

theorem splitExactly_eq {α : Type} (n : Nat) (l : List α) :
    splitExactly n l = if n ≤ l.length then some (l.take n, l.drop n) else none := by
  induction n generalizing l with
  | zero => simp [splitExactly]
  | succ n ih =>
    cases l with
    | nil => simp [splitExactly]
    | cons x l =>
      simp only [splitExactly, ih, List.length_cons, Nat.add_le_add_iff_right]
      split <;> simp

namespace Decoder

/-- The next `n` bytes (`assert_enough_data_for`, then the bytes). -/
def take (n : Nat) : Decoder Bytes := fun bytes =>
  match splitExactly n bytes with
  | some (front, rest) => .ok front rest
  | none => .error .endOfInput bytes

/-- The number of bytes left. -/
def remaining : Decoder Nat := fun bytes => .ok bytes.length bytes

/-- Refuses what was read unless it keeps a rule. -/
def require (rule : FormatRule) (holds : Bool) : Decoder Unit :=
  if holds then pure () else throw (.broken rule)

/-- `n` values, one after the other. -/
def replicate {α : Type} : Nat → Decoder α → Decoder (List α)
  | 0, _ => pure []
  | n + 1, item => do
    let x ← item
    let xs ← replicate n item
    return x :: xs

end Decoder

/-! ## Codecs -/

/-- A written form of a type: the items of a value, and how to read one (`SerializeBytes` with
    `DeserializeBytes`). -/
structure Codec (α : Type) where
  pieces : α → List Piece
  read : Decoder α

namespace Codec

variable {α β : Type}

/-- Writes a value into a buffer with the given room (`serialize`). -/
def encode (c : Codec α) (room : Option Nat) (x : α) : Bytes × Option EncodeError :=
  emit room (c.pieces x)

/-- Reads a value and gives the bytes after it, also after a failure (`deserialize`). -/
def decode (c : Codec α) (bytes : Bytes) : EStateM.Result DecodeError Bytes α := c.read.run bytes

/-- The same form for a type with other names for its values. -/
def imap (c : Codec α) (wrap : α → β) (unwrap : β → α) : Codec β where
  pieces x := c.pieces (unwrap x)
  read := wrap <$> c.read

/-- The same form for the values that keep a rule. -/
def filter (c : Codec α) (rule : FormatRule) (holds : α → Bool) : Codec α where
  pieces := c.pieces
  read := do
    let x ← c.read
    Decoder.require rule (holds x)
    return x

/-- One value after another (`serialize` and `deserialize` of pairs). -/
def pair (c : Codec α) (d : Codec β) : Codec (α × β) where
  pieces x := c.pieces x.1 ++ d.pieces x.2
  read := do
    let a ← c.read
    let b ← d.read
    return (a, b)

end Codec

end CircuitWitness
