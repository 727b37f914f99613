import CircuitWitness.Field.Power

/-!
# Elements of a prime field

A `PrimeField` names the order of the field; an element is its canonical representative below
that order. The order is at least five, so that the constants `0, 1, 2, -1, -2` differ. That it
is prime is used by the laws of division only, and is a hypothesis there.

Results:
* `Elem.ext`: an element is its representative.
* `val_add`, `val_sub`, `val_mul`, `val_neg`, `val_ofNat`: each operation on representatives.
* `ofNat_val`: reducing a representative gives the element back.
-/

namespace CircuitWitness

/-- A field of integers modulo `modulus` (`Field`, by its `modulus`). -/
structure PrimeField where
  modulus : Nat
  five_le : 5 ≤ modulus
deriving DecidableEq

namespace PrimeField

/-- The field of order 47, small enough to be enumerated (`TinyField`). -/
def tiny : PrimeField := ⟨47, by decide⟩

/-- The scalar field of the BN254 curve. -/
def bn254 : PrimeField :=
  ⟨21888242871839275222246405745257275088548364400416034343698204186575808495617, by decide⟩

/-- The number of bytes that hold any element: the bits of the modulus, rounded up to bytes
    (`byte_len`). -/
def byteLen (F : PrimeField) : Nat := (F.modulus.log2 + 1 + 7) / 8

theorem modulus_pos (F : PrimeField) : 0 < F.modulus := Nat.lt_of_lt_of_le (by decide) F.five_le

/-- An element, given by its representative below the modulus (a value of a `Field`, by
    `to_biguint`). -/
structure Elem (F : PrimeField) where
  val : Nat
  val_lt : val < F.modulus
deriving DecidableEq

namespace Elem

variable {F : PrimeField}

@[ext] theorem ext {a b : F.Elem} (h : a.val = b.val) : a = b := by
  cases a; cases b; simp_all

/-! ## Elements from numbers -/

/-- The class of a natural number (`from_biguint`, `from_u64`). -/
def ofNat (n : Nat) : F.Elem := ⟨n % F.modulus, Nat.mod_lt _ F.modulus_pos⟩

instance : Zero F.Elem := ⟨⟨0, F.modulus_pos⟩⟩

instance : One F.Elem := ⟨⟨1, Nat.lt_of_lt_of_le (by decide) F.five_le⟩⟩

instance : Inhabited F.Elem := ⟨0⟩

/-! ## Arithmetic -/

instance : Add F.Elem := ⟨fun a b => ofNat (a.val + b.val)⟩

instance : Neg F.Elem := ⟨fun a => ofNat (F.modulus - a.val)⟩

instance : Sub F.Elem := ⟨fun a b => ofNat (a.val + (F.modulus - b.val))⟩

instance : Mul F.Elem := ⟨fun a b => ofNat (a.val * b.val)⟩

/-- Twice an element. -/
def double (a : F.Elem) : F.Elem := a + a

/-- The inverse of a non-zero element, as its power `p - 2`; zero has none. -/
def inverse? (a : F.Elem) : Option F.Elem :=
  if a = 0 then none
  else some ⟨modPow a.val (F.modulus - 2) F.modulus, modPow_lt _ _ F.modulus_pos⟩

/-- The class of an integer: the class of its magnitude, negated below zero (`from_i64`). -/
def ofInt (n : Int) : F.Elem := if n < 0 then -(ofNat n.natAbs) else ofNat n.natAbs

/-- The decimal digits of the representative (`to_decimal_string`). -/
def decimal (a : F.Elem) : String := toString a.val

/-! ## Representatives -/

@[simp] theorem val_zero : (0 : F.Elem).val = 0 := rfl

@[simp] theorem val_one : (1 : F.Elem).val = 1 := rfl

@[simp] theorem val_ofNat (n : Nat) : (ofNat n : F.Elem).val = n % F.modulus := rfl

@[simp] theorem val_add (a b : F.Elem) : (a + b).val = (a.val + b.val) % F.modulus := rfl

@[simp] theorem val_mul (a b : F.Elem) : (a * b).val = a.val * b.val % F.modulus := rfl

@[simp] theorem val_neg (a : F.Elem) : (-a).val = (F.modulus - a.val) % F.modulus := rfl

@[simp] theorem val_sub (a b : F.Elem) :
    (a - b).val = (a.val + (F.modulus - b.val)) % F.modulus := rfl

@[simp] theorem ofNat_val (a : F.Elem) : ofNat a.val = a :=
  ext (Nat.mod_eq_of_lt a.val_lt)

end Elem

end PrimeField

end CircuitWitness
