import CircuitWitness.Field.Power
import CircuitWitness.Hint.Basic

/-!
# The hints that every solver knows

Inversion, where zero stays zero, and the decomposition of a number into bits.
-/

namespace CircuitWitness

namespace HintFunction

/-- The inverse of the single input modulo the prime modulus, as a power; zero for zero
    (`InvZeroHint`). -/
def invZero : HintFunction where
  call modulus inputs n _ :=
    match inputs with
    | [x] =>
      if n ≠ 1 then .error "inv_zero expects one input and one output"
      else if modulus ≤ 1 then .error "inv_zero requires a prime modulus"
      else .ok (Vector.replicate n (modPow x (modulus - 2) modulus))
    | _ => .error "inv_zero expects one input and one output"

/-- The bits of the single input, lowest first, as many as there are outputs (`BitsHint`). -/
def bits : HintFunction where
  call _ inputs _ _ :=
    match inputs with
    | [x] => .ok (Vector.ofFn fun i => if x.testBit i then 1 else 0)
    | _ => .error s!"bits expects one input, got {inputs.length}"

end HintFunction

namespace HintRegistry

/-- The name of the inversion hint (`INV_ZERO`). -/
def invZeroName : String := "inv_zero"

/-- The name of the bit decomposition hint (`BITS`). -/
def bitsName : String := "bits"

/-- The registry of the built-in hints (`with_builtins`). -/
def builtin : HintRegistry :=
  (empty.register invZeroName .invZero).register bitsName .bits

end HintRegistry

end CircuitWitness
