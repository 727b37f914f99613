/-!
# Powers modulo a number

Square and multiply on natural numbers. It serves the inverse of a field element and the
built-in inversion hint alike.

Results:
* `modPow_eq`: the answer is the power reduced modulo `m`.
* `modPow_lt`: for a positive modulus the answer is reduced.
-/

namespace CircuitWitness

/-- The power `base ^ exponent` reduced modulo `m`, by repeated squaring. -/
def modPow (base exponent m : Nat) : Nat :=
  if h : exponent = 0 then 1 % m
  else
    let half := modPow (base * base % m) (exponent / 2) m
    if exponent % 2 = 1 then base * half % m else half
termination_by exponent
decreasing_by omega

theorem modPow_zero (base m : Nat) : modPow base 0 m = 1 % m := by
  rw [modPow]; simp

theorem modPow_eq (base exponent m : Nat) :
    modPow base exponent m = Nat.pow base exponent % m := by
  rw [Nat.pow_eq]
  induction exponent using Nat.strongRecOn generalizing base with
  | _ exponent ih =>
    rw [modPow]
    split
    · next h => simp [h]
    · next h =>
      have half := ih (exponent / 2) (by omega) (base * base % m)
      have squared : (base * base % m) ^ (exponent / 2) % m
          = base ^ (2 * (exponent / 2)) % m := by
        rw [← Nat.pow_mod, ← Nat.pow_two, ← Nat.pow_mul]
      simp only [half, squared]
      split
      · next odd =>
        have e : exponent = 2 * (exponent / 2) + 1 := by omega
        rw [Nat.mul_mod_mod]
        conv => rhs; rw [e]
        rw [Nat.pow_succ, Nat.mul_comm]
      · next even =>
        have e : 2 * (exponent / 2) = exponent := by omega
        rw [e]

theorem modPow_lt {m : Nat} (base exponent : Nat) (hm : 0 < m) :
    modPow base exponent m < m := by
  rw [modPow_eq]; exact Nat.mod_lt _ hm

end CircuitWitness
