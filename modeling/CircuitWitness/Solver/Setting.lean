import CircuitWitness.Text.Blank

/-!
# Settings given as text

A positive number may have blanks around it and a plus sign in front; it must fit into 64 bits.
A flag is set by one of a few words and by no other text.

Results:
* `positive?_pos`: what is read is positive and fits into 64 bits.
-/

namespace CircuitWitness.Setting

/-- The number of some decimal digits; none if there is no digit or another character. -/
def digits? (cs : List Char) : Option Nat :=
  if cs.isEmpty then none
  else cs.foldl (fun acc c => acc.bind fun n =>
    if '0' ≤ c ∧ c ≤ '9' then some (10 * n + (c.toNat - '0'.toNat)) else none) (some 0)

/-- The number without a sign in front, or with a plus. -/
def unsigned? : List Char → Option Nat
  | '+' :: cs => digits? cs
  | cs => digits? cs

/-- The number of values of 64 bits. -/
def sizeRange : Nat := 18446744073709551616

/-- The positive number of at most 64 bits that a text gives (`usize_env_var`). -/
def positive? (text : String) : Option Nat :=
  match unsigned? (Text.trimBlanks text.toList) with
  | some n => if 0 < n ∧ n < sizeRange then some n else none
  | none => none

/-- Whether a text sets a flag (`boolean_env_flag_set`). -/
def isSet (text : String) : Bool := ["1", "on", "ON", "true", "TRUE", "yes", "YES"].contains text

theorem positive?_pos {text : String} {n : Nat} (h : positive? text = some n) :
    0 < n ∧ n < sizeRange := by
  unfold positive? at h
  split at h
  · split at h
    · simp_all
    · simp at h
  · simp at h

end CircuitWitness.Setting
