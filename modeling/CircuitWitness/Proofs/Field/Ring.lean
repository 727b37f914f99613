import CircuitWitness.Constraint.Coefficients
import CircuitWitness.Field.Power
import Mathlib.FieldTheory.Finite.Basic
import Mathlib.Tactic.LinearCombination
import Mathlib.Tactic.NormNum.Prime

/-!
# The ring of elements

Canonical representatives are in bijection with residue classes, and each operation computes the
operation of `ZMod`. So the elements form a commutative ring. That the modulus is prime is only
needed for division.

Results:
* `toZMod_injective`: an element is determined by its residue class.
* `inverse?_eq_none_iff`: zero is the only element without an inverse.
* `mul_of_inverse?`: for a prime modulus the inverse is one.
* `get?_zero`, `get?_one`, `get?_two`, `get?_minusOne`: what the reserved ids hold in every
  coefficient table.
-/

namespace CircuitWitness

namespace PrimeField

/-- The modulus is prime. -/
abbrev IsPrime (F : PrimeField) : Prop := F.modulus.Prime

theorem isPrime_tiny : tiny.IsPrime := by
  change Nat.Prime 47
  norm_num

namespace Elem

variable {F : PrimeField}

/-! ## Residue classes -/

/-- The residue class of an element. -/
def toZMod (a : F.Elem) : ZMod F.modulus := (a.val : ZMod F.modulus)

theorem toZMod_injective : Function.Injective (toZMod (F := F)) := by
  intro a b h
  have h' := (ZMod.natCast_eq_natCast_iff a.val b.val F.modulus).1 h
  exact ext (Nat.ModEq.eq_of_lt_of_lt h' a.val_lt b.val_lt)

theorem toZMod_ofNat (n : ℕ) : toZMod (ofNat n : F.Elem) = (n : ZMod F.modulus) := by
  simp [toZMod]

@[simp] theorem toZMod_zero : toZMod (0 : F.Elem) = 0 := by simp [toZMod]

@[simp] theorem toZMod_one : toZMod (1 : F.Elem) = 1 := by simp [toZMod]

@[simp] theorem toZMod_add (a b : F.Elem) : toZMod (a + b) = toZMod a + toZMod b := by
  simp [toZMod]

@[simp] theorem toZMod_mul (a b : F.Elem) : toZMod (a * b) = toZMod a * toZMod b := by
  simp [toZMod]

@[simp] theorem toZMod_neg (a : F.Elem) : toZMod (-a) = -toZMod a := by
  simp [toZMod, Nat.cast_sub (Nat.le_of_lt a.val_lt)]

@[simp] theorem toZMod_sub (a b : F.Elem) : toZMod (a - b) = toZMod a - toZMod b := by
  simp [toZMod, Nat.cast_sub (Nat.le_of_lt b.val_lt), sub_eq_add_neg]

/-! ## Ring laws -/

instance : CommRing F.Elem where
  add_assoc a b c := toZMod_injective (by simp [add_assoc])
  zero_add a := toZMod_injective (by simp)
  add_zero a := toZMod_injective (by simp)
  add_comm a b := toZMod_injective (by simp [add_comm])
  mul_assoc a b c := toZMod_injective (by simp [mul_assoc])
  mul_comm a b := toZMod_injective (by simp [mul_comm])
  one_mul a := toZMod_injective (by simp)
  mul_one a := toZMod_injective (by simp)
  zero_mul a := toZMod_injective (by simp)
  mul_zero a := toZMod_injective (by simp)
  left_distrib a b c := toZMod_injective (by simp [mul_add])
  right_distrib a b c := toZMod_injective (by simp [add_mul])
  neg_add_cancel a := toZMod_injective (by simp)
  sub_eq_add_neg a b := toZMod_injective (by simp [sub_eq_add_neg])
  nsmul := nsmulRec
  zsmul := zsmulRec

theorem ofNat_two : (ofNat 2 : F.Elem) = 1 + 1 :=
  toZMod_injective (by rw [toZMod_ofNat]; simp; norm_num)

theorem double_eq (a : F.Elem) : a.double = ofNat 2 * a := by
  rw [ofNat_two, double]; ring

/-! ## Division -/

theorem inverse?_eq_none_iff {a : F.Elem} : a.inverse? = none ↔ a = 0 := by
  unfold inverse?
  split <;> simp_all

theorem toZMod_inverse? {a i : F.Elem} (h : a.inverse? = some i) :
    toZMod i = toZMod a ^ (F.modulus - 2) := by
  unfold inverse? at h
  split at h
  · simp at h
  · obtain rfl := Option.some.inj h
    simp [toZMod, modPow_eq]

theorem mul_of_inverse? (hp : F.IsPrime) {a i : F.Elem} (h : a.inverse? = some i) :
    a * i = 1 := by
  have : Fact F.modulus.Prime := ⟨hp⟩
  have nonzero : toZMod a ≠ 0 := by
    intro h0
    have : a = 0 := toZMod_injective (by rw [h0, toZMod_zero])
    rw [inverse?_eq_none_iff.2 this] at h
    simp at h
  have five := F.five_le
  apply toZMod_injective
  rw [toZMod_mul, toZMod_inverse? h, ← pow_succ', toZMod_one,
    show F.modulus - 2 + 1 = F.modulus - 1 by omega]
  exact ZMod.pow_card_sub_one_eq_one nonzero

theorem inverse?_neg_one (hp : F.IsPrime) : (-1 : F.Elem).inverse? = some (-1) := by
  have five := F.five_le
  cases h : (-1 : F.Elem).inverse? with
  | none =>
    have zero := congrArg val (inverse?_eq_none_iff.1 h)
    rw [val_neg, val_one, val_zero, Nat.mod_eq_of_lt (by omega)] at zero
    omega
  | some i =>
    have := mul_of_inverse? hp h
    rw [show i = -1 by linear_combination -this]

end Elem

end PrimeField

/-! ## Reserved coefficients -/

namespace CoeffTable

variable {F : PrimeField} (t : CoeffTable F)

@[simp] theorem get?_zero : t.get? CoeffId.zero = some 0 := rfl

@[simp] theorem get?_one : t.get? CoeffId.one = some 1 := rfl

@[simp] theorem get?_two : t.get? CoeffId.two = some (PrimeField.Elem.ofNat 2) := rfl

@[simp] theorem get?_minusOne : t.get? CoeffId.minusOne = some (-1) := rfl

end CoeffTable

end CircuitWitness
