/-!
# UTF-8

Text is written as the one to four bytes of each character. Reading goes byte by byte: after a
leading byte it knows how many continuation bytes are owed and which range the next one must lie
in. The ranges after `E0`, `ED`, `F0` and `F4` keep out overlong forms, surrogates and numbers
past the last character.

A fault names the index of the character that it spoils. Bytes that can begin no character are
`invalid`, with the number of bytes that were still acceptable; bytes that end too early are
`incomplete`.
-/

namespace CircuitWitness.Utf8

/-! ## Writing -/

/-- The bytes of a character. -/
def encodeChar (c : Char) : List UInt8 :=
  let n := c.toNat
  if n < 0x80 then [UInt8.ofNat n]
  else if n < 0x800 then [UInt8.ofNat (0xC0 + n / 64), UInt8.ofNat (0x80 + n % 64)]
  else if n < 0x10000 then
    [UInt8.ofNat (0xE0 + n / 4096), UInt8.ofNat (0x80 + n / 64 % 64), UInt8.ofNat (0x80 + n % 64)]
  else
    [UInt8.ofNat (0xF0 + n / 262144), UInt8.ofNat (0x80 + n / 4096 % 64),
      UInt8.ofNat (0x80 + n / 64 % 64), UInt8.ofNat (0x80 + n % 64)]

/-- The bytes of a text. -/
def encode (s : String) : List UInt8 := s.toList.flatMap encodeChar

/-! ## Reading -/

/-- Why bytes are no text. -/
inductive Fault where
  /-- The `size` bytes at index `start` begin no character. -/
  | invalid (start size : Nat)
  /-- The bytes end inside the character at index `start`. -/
  | incomplete (start : Nat)
deriving DecidableEq, Repr

/-- The fault in words. -/
def Fault.message : Fault → String
  | .invalid start size => s!"invalid utf-8 sequence of {size} bytes from index {start}"
  | .incomplete start => s!"incomplete utf-8 byte sequence from index {start}"

/-- A character that has begun: the bytes seen, the bytes owed, the range of the next byte, and
    the number that the bytes seen stand for. -/
structure Pending where
  seen : Nat
  owed : Nat
  low : Nat
  high : Nat
  code : Nat

/-- What a leading byte of a longer form announces. -/
def lead (b : Nat) : Option Pending :=
  if 0xC2 ≤ b ∧ b ≤ 0xDF then some ⟨1, 1, 0x80, 0xBF, b - 0xC0⟩
  else if b = 0xE0 then some ⟨1, 2, 0xA0, 0xBF, 0⟩
  else if b = 0xED then some ⟨1, 2, 0x80, 0x9F, 0xD⟩
  else if 0xE1 ≤ b ∧ b ≤ 0xEF then some ⟨1, 2, 0x80, 0xBF, b - 0xE0⟩
  else if b = 0xF0 then some ⟨1, 3, 0x90, 0xBF, 0⟩
  else if 0xF1 ≤ b ∧ b ≤ 0xF3 then some ⟨1, 3, 0x80, 0xBF, b - 0xF0⟩
  else if b = 0xF4 then some ⟨1, 3, 0x80, 0x8F, 4⟩
  else none

/-- The characters of the bytes, where the current character starts at index `start` and
    `pending` holds it if it has begun. -/
def decodeFrom (start : Nat) (pending : Option Pending) : List UInt8 → Except Fault (List Char)
  | [] =>
    match pending with
    | none => .ok []
    | some _ => .error (.incomplete start)
  | byte :: rest =>
    let b := byte.toNat
    match pending with
    | none =>
      if b < 0x80 then do
        let cs ← decodeFrom (start + 1) none rest
        return Char.ofNat b :: cs
      else
        match lead b with
        | none => .error (.invalid start 1)
        | some p => decodeFrom start (some p) rest
    | some p =>
      if p.low ≤ b ∧ b ≤ p.high then
        let code := p.code * 64 + (b - 0x80)
        if p.owed ≤ 1 then do
          let cs ← decodeFrom (start + p.seen + 1) none rest
          return Char.ofNat code :: cs
        else decodeFrom start (some ⟨p.seen + 1, p.owed - 1, 0x80, 0xBF, code⟩) rest
      else .error (.invalid start p.seen)

/-- The text of the bytes. -/
def decode (bytes : List UInt8) : Except Fault String := do
  let cs ← decodeFrom 0 none bytes
  return String.ofList cs

end CircuitWitness.Utf8
