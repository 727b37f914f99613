import CircuitWitness.Hint.Builtin
import Mathlib.Algebra.BigOperators.Fin
import Mathlib.Data.Nat.Size
import Mathlib.FieldTheory.Finite.Basic
import Mathlib.Tactic.NormNum.Prime

/-!
# The built-in hints

For a prime modulus the power `p - 2` of a number is its inverse, by Fermat's little theorem. The
power of a multiple of the modulus is zero, but for the modulus two: there the exponent is zero, and
the power is one whatever the number is.

The bits of a number stand for the number again if there are enough of them. As many as there are
outputs are given, so that otherwise the number is cut off.

Results:
* `modPow_inverse`: the power of a number that the modulus does not divide is its inverse.
* `modPow_of_dvd`: the power of a multiple of the modulus.
* `invZero_inverts`: the answer of the inversion hint for every number.
* `sum_testBit`: the lowest bits of a number stand for its remainder.
* `bits_decomposes`: the answer of the hint for bits, for every number and number of outputs.
-/

namespace CircuitWitness

variable {p : ℕ}

/-! ## The power `p - 2` -/

/-- The power of a number that the modulus does not divide is its inverse. -/
theorem modPow_inverse (prime : p.Prime) {x : ℕ} (unit : ¬ p ∣ x) :
    x * modPow x (p - 2) p ≡ 1 [MOD p] := by
  have two := prime.two_le
  have coprime : x.Coprime p := (prime.coprime_iff_not_dvd.2 unit).symm
  have exponent : p - 2 + 1 = p.totient := by
    rw [Nat.totient_prime prime]
    omega
  rw [modPow_eq]
  calc x * (x ^ (p - 2) % p)
    _ ≡ x * x ^ (p - 2) [MOD p] := (Nat.mod_modEq _ p).mul_left x
    _ = x ^ p.totient := by rw [← pow_succ', exponent]
    _ ≡ 1 [MOD p] := Nat.ModEq.pow_totient coprime

/-- The power of a multiple of the modulus is zero, unless it is the empty product. -/
theorem modPow_of_dvd (prime : p.Prime) {x : ℕ} (multiple : p ∣ x) :
    modPow x (p - 2) p = if p = 2 then 1 else 0 := by
  have two := prime.two_le
  split
  · next even =>
    subst even
    exact modPow_zero x 2
  · next odd =>
    have factor : p ∣ x ^ (p - 2) := dvd_pow multiple (by omega)
    rw [modPow_eq]
    exact Nat.mod_eq_zero_of_dvd factor

/-! ## The hint -/

namespace HintFunction

/-- With one input and one output the hint gives the power, whatever the output was before. -/
theorem invZero_call (large : 1 < p) (x : ℕ) (old : Vector ℕ 1) :
    invZero.call p [x] 1 old = .ok #v[modPow x (p - 2) p] := by
  have small : ¬ p ≤ 1 := by omega
  simp only [invZero, ne_eq, not_true_eq_false, if_false, if_neg small]
  rfl

/-- For a prime modulus and any number, reduced or not, the hint gives a reduced answer. It is the
    inverse of a number that has one. A multiple of the modulus has none: then the answer is zero,
    but one for the modulus two. -/
theorem invZero_inverts (prime : p.Prime) (x : ℕ) (old : Vector ℕ 1) :
    ∃ y, invZero.call p [x] 1 old = .ok #v[y] ∧ y < p ∧
      (p ∣ x → y = if p = 2 then 1 else 0) ∧ (¬ p ∣ x → x * y ≡ 1 [MOD p]) :=
  ⟨modPow x (p - 2) p, invZero_call prime.one_lt x old, modPow_lt x (p - 2) prime.pos,
    modPow_of_dvd prime, modPow_inverse prime⟩

/-- The inverse of 5 modulo 47, from an input that is not reduced. -/
theorem invZero_inverts_five : Nat.Prime 47 ∧
    ∃ y, invZero.call 47 [52] 1 #v[9] = .ok #v[y] ∧ y < 47 ∧ 52 * y ≡ 1 [MOD 47] := by
  have prime : Nat.Prime 47 := by norm_num
  obtain ⟨y, answer, reduced, -, inverse⟩ := invZero_inverts prime 52 #v[9]
  exact ⟨prime, y, answer, reduced, inverse (by decide)⟩

/-- The answer for zero is not zero for every prime modulus. -/
theorem invZero_two : ¬ ∀ p : ℕ, p.Prime → ∀ (x : ℕ) (old : Vector ℕ 1),
    ∃ y, invZero.call p [x] 1 old = .ok #v[y] ∧ y < p ∧
      (p ∣ x → y = 0) ∧ (¬ p ∣ x → x * y ≡ 1 [MOD p]) := by
  intro claimed
  obtain ⟨y, answer, -, zero, -⟩ := claimed 2 Nat.prime_two 0 #v[9]
  have one : invZero.call 2 [0] 1 #v[9] = .ok #v[1] := by
    rw [invZero_call (by decide), modPow_zero]
  rw [one, zero (dvd_zero 2)] at answer
  cases answer

end HintFunction

/-! ## Bits -/

/-- The number that the lowest bits stand for is what is left modulo a power of two. -/
theorem sum_testBit (x n : ℕ) :
    ∑ i ∈ Finset.range n, (x.testBit i).toNat * 2 ^ i = x % 2 ^ n := by
  induction n with
  | zero => rw [Finset.sum_range_zero, pow_zero, Nat.mod_one]
  | succ n ih => rw [Finset.sum_range_succ, ih, Nat.mod_pow_succ, Nat.toNat_testBit, mul_comm]

/-- A number is below a power of two exactly if it has no more bits than the exponent says. -/
theorem mod_two_pow_eq_self_iff {x n : ℕ} : x % 2 ^ n = x ↔ x.size ≤ n := by
  rw [Nat.mod_eq_iff_lt (by positivity), Nat.size_le]

namespace HintFunction

/-- The answer of the hint for bits: one bit for each output. -/
def bitsOf (x n : ℕ) : Vector ℕ n := Vector.ofFn fun i => (x.testBit i).toNat

theorem bits_call (p x : ℕ) {n : ℕ} (old : Vector ℕ n) :
    bits.call p [x] n old = .ok (bitsOf x n) := by
  have digit (i : Fin n) : (if x.testBit i then 1 else 0) = (x.testBit i).toNat := by
    cases x.testBit i <;> rfl
  simp only [bits, bitsOf, digit]

theorem eq_zero_or_one_of_mem_bitsOf {x n b : ℕ} (h : b ∈ bitsOf x n) : b = 0 ∨ b = 1 := by
  obtain ⟨i, rfl⟩ := Vector.mem_ofFn.1 h
  cases x.testBit i <;> simp

theorem sum_bitsOf (x n : ℕ) : ∑ i : Fin n, (bitsOf x n)[i] * 2 ^ i.val = x % 2 ^ n := by
  rw [← sum_testBit, ← Fin.sum_univ_eq_sum_range fun i => (x.testBit i).toNat * 2 ^ i]
  exact Finset.sum_congr rfl fun i _ => by simp [bitsOf]

/-- The hint for bits answers for every modulus, every number and any number of outputs, whatever
    these held before. Its answer consists of zeros and ones and stands for the number modulo a
    power of two, which is the number itself exactly if its bits have room in the outputs. -/
theorem bits_decomposes (p x : ℕ) {n : ℕ} (old : Vector ℕ n) :
    ∃ out, bits.call p [x] n old = .ok out ∧ (∀ b ∈ out, b = 0 ∨ b = 1) ∧
      ∑ i : Fin n, out[i] * 2 ^ i.val = x % 2 ^ n ∧
      (∑ i : Fin n, out[i] * 2 ^ i.val = x ↔ x.size ≤ n) := by
  refine ⟨bitsOf x n, bits_call p x old, fun b => eq_zero_or_one_of_mem_bitsOf, sum_bitsOf x n, ?_⟩
  rw [sum_bitsOf]
  exact mod_two_pow_eq_self_iff

example : bits.call 47 [11] 5 (.replicate 5 9) = .ok #v[1, 1, 0, 1, 0] := rfl

end HintFunction

end CircuitWitness
