import CircuitWitness.Circuit.Basic
import CircuitWitness.Text.Quoted

/-!
# What a circuit refuses

The causes for which an operation on a circuit fails, and their wording.
-/

namespace CircuitWitness.Circuit

/-- Which inputs were declared too late (the reasons of `VariableOrder`). -/
inductive OrderFault where
  | publicTooLate
  | secretTooLate
deriving DecidableEq, Repr

/-- Why an operation on a circuit fails (the `Error` of `System`). -/
inductive Error where
  | unknownBlueprint (id : BlueprintId)
  | blueprintKindMismatch (id : BlueprintId) (expected got : InstructionKind)
  | circuitKindMismatch (kind : CircuitKind) (got : InstructionKind)
  | wireOutOfRange (wire : WireId) (wireCount : Nat)
  | coeffOutOfRange (coeff : CoeffId) (coeffCount : Nat)
  | variableOrder (fault : OrderFault)
  | wireAlreadyDefined (wire : WireId)
  | hintIdMismatch (name : String) (expected got : HintId)
  | hintIdCollision (id : HintId) (existing name : String)
  | constraintOutOfRange (constraint : UInt32) (constraintCount : Nat)
  | invalidLevels (fault : LevelFault)
  | unconstrainedWires (inputs : List String) (hintOutputCount : Nat)
  | blueprint (error : Blueprint.Error)
deriving DecidableEq, Repr

/-- The fault in words. -/
def OrderFault.message : OrderFault → String
  | .publicTooLate => "public variable declared after secret or internal ones"
  | .secretTooLate => "secret variable declared after internal ones"

/-- The error in words. -/
def Error.message : Error → String
  | .unknownBlueprint id => s!"unknown blueprint id {id.toNat}"
  | .blueprintKindMismatch id expected got =>
    s!"blueprint {id.toNat} encodes {got.name} instructions, expected {expected.name}"
  | .circuitKindMismatch kind got => s!"{kind.name} systems cannot hold {got.name} constraints"
  | .wireOutOfRange wire n => s!"wire {wire.toNat} is out of range, the system has {n} wires"
  | .coeffOutOfRange coeff n =>
    s!"coefficient id {coeff.toNat} is out of range, the table has {n} entries"
  | .variableOrder fault =>
    s!"variables must be declared public, then secret, then internal: {fault.message}"
  | .wireAlreadyDefined wire => s!"wire {wire.toNat} is already defined by another instruction"
  | .hintIdMismatch name expected got =>
    "hint " ++ Text.quoted name ++ " has id " ++ Text.hexWord expected ++ " but the mapping uses "
      ++ Text.hexWord got
  | .hintIdCollision id existing name =>
    "hint id " ++ Text.hexWord id ++ " is claimed by both " ++ Text.quoted existing ++ " and "
      ++ Text.quoted name
  | .constraintOutOfRange constraint n =>
    s!"constraint {constraint.toNat} is out of range, the system has {n} constraints"
  | .invalidLevels fault => s!"invalid levels: {fault.message}"
  | .unconstrainedWires inputs n =>
    "unconstrained wires: inputs " ++ Text.quotedList inputs ++ s!", {n} hint outputs"
  | .blueprint error => s!"blueprint error: {error.message}"

end CircuitWitness.Circuit
