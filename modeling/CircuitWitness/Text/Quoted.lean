import CircuitWitness.Text.Glyph

/-!
# Quoted text

How names appear inside messages: between double quotes, with escapes for the quote, the
backslash and all that has no glyph. Lists of names stand in brackets. Ids appear as eight
hexadecimal digits.

Results:
* `length_hexDigits`: as many digits as asked for.
-/

namespace CircuitWitness.Text

/-! ## Hexadecimal digits -/

/-- A digit below sixteen, in lower case. -/
def hexDigit (n : Nat) : Char := if n < 10 then Char.ofNat (48 + n) else Char.ofNat (87 + n)

/-- The last `k` hexadecimal digits of a number. -/
def hexDigits : Nat → Nat → List Char
  | 0, _ => []
  | k + 1, n => hexDigits k (n / 16) ++ [hexDigit (n % 16)]

theorem length_hexDigits (k n : Nat) : (hexDigits k n).length = k := by
  induction k generalizing n with
  | zero => rfl
  | succ k ih => simp [hexDigits, ih]

/-- The hexadecimal digits of a number, without leading zeros. -/
def hexNumber (n : Nat) : List Char := hexDigits (n.log2 / 4 + 1) n

/-- A word as `0x` and its eight hexadecimal digits. -/
def hexWord (w : UInt32) : String := "0x" ++ String.ofList (hexDigits 8 w.toNat)

/-! ## Quotes -/

/-- A character as it appears between quotes. -/
def quotedChar (c : Char) : List Char :=
  if c = '\x00' then ['\\', '0']
  else if c = '\t' then ['\\', 't']
  else if c = '\n' then ['\\', 'n']
  else if c = '\r' then ['\\', 'r']
  else if c = '"' then ['\\', '"']
  else if c = '\\' then ['\\', '\\']
  else if hasGlyph c then [c]
  else ['\\', 'u', '\x7b'] ++ hexNumber c.toNat ++ ['\x7d']

/-- A text between quotes. -/
def quoted (s : String) : String :=
  String.ofList ('"' :: s.toList.flatMap quotedChar ++ ['"'])

/-- Texts between quotes, in brackets. -/
def quotedList (l : List String) : String := "[" ++ ", ".intercalate (l.map quoted) ++ "]"

end CircuitWitness.Text
