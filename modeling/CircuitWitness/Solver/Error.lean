import CircuitWitness.Circuit.Error

/-!
# What can go wrong while solving

A fatal error shows a fault of the circuit itself. The other errors have to do with the inputs at
hand: their number, the hints that are known, a hint that fails, a constraint that does not hold.
-/

namespace CircuitWitness.Solver

/-- A relation between values that was found to fail (the `reason` of an
    `UnsatisfiedConstraintError`). -/
inductive Relation (F : PrimeField) where
  /-- `a ⋅ b = c` -/
  | product (a b c : F.Elem)
  /-- `l + r + o + m₀ × m₁ + q = 0` -/
  | gate (l r o m₀ m₁ q : F.Elem)
  /-- `left = right` -/
  | equal (left right : F.Elem)
deriving DecidableEq

/-- The failed relation with its values. -/
def Relation.text {F : PrimeField} : Relation F → String
  | .product a b c => a.decimal ++ " ⋅ " ++ b.decimal ++ " != " ++ c.decimal
  | .gate l r o m₀ m₁ q =>
    l.decimal ++ " + " ++ r.decimal ++ " + " ++ o.decimal ++ " + (" ++ m₀.decimal ++ " × "
      ++ m₁.decimal ++ ") + " ++ q.decimal ++ " != 0"
  | .equal left right => left.decimal ++ " != " ++ right.decimal

/-- A constraint that does not hold for the values that were found
    (`UnsatisfiedConstraintError`). -/
structure Unsatisfied (F : PrimeField) where
  constraint : UInt32
  relation : Relation F
  /-- The description of the constraint, filled in. -/
  description : Option String
deriving DecidableEq

/-- The description if there is one, else the relation (`detail`). -/
def Unsatisfied.detail {F : PrimeField} (u : Unsatisfied F) : String :=
  u.description.getD u.relation.text

/-- What is wrong with an instruction (the reasons of `MalformedInstruction`). -/
inductive InstructionFault where
  | unknownIndex
  | unknownConstraint
  | solvedTwice
  | neverSolved
  | refused (error : Circuit.Error)
deriving DecidableEq, Repr

/-- The fault in words. -/
def InstructionFault.message : InstructionFault → String
  | .unknownIndex => "instruction index out of range"
  | .unknownConstraint => "constraint index out of range"
  | .solvedTwice => "constraint solved twice"
  | .neverSolved => "constraint was never solved"
  | .refused error => error.message

/-- A fault of the circuit (`FatalError`). -/
inductive FatalError where
  | wireSolvedTwice (wire : WireId)
  | multipleUnsolved (constraint : UInt32)
  | divisionByZeroCoeff
  | unsupportedBlueprint (blueprint : Blueprint) (capability : Blueprint.Capability)
  | unknownBlueprint (id : BlueprintId)
  | unsolvedHintInput (wire : WireId) (hint : HintId)
  | unsolvedWire (wire : WireId)
  | incomplete (solved wires : Nat)
  | wireOutOfRange (wire : WireId) (wires : Nat)
  | coeffOutOfRange (coeff : CoeffId)
  | malformed (instruction : UInt32) (fault : InstructionFault)
  | blueprint (error : Blueprint.Error)
deriving DecidableEq, Repr

/-- The fault in words. -/
def FatalError.message : FatalError → String
  | .wireSolvedTwice wire => s!"wire {wire.toNat} solved twice"
  | .multipleUnsolved constraint =>
    s!"constraint #{constraint.toNat} has more than one unsolved wire"
  | .divisionByZeroCoeff => "division by the zero coefficient"
  | .unsupportedBlueprint b capability =>
    s!"blueprint {b.name} does not support {capability.name}"
  | .unknownBlueprint id => s!"unknown blueprint id {id.toNat}"
  | .unsolvedHintInput wire hint =>
    "hint " ++ Text.hexWord hint ++ s!" reads wire {wire.toNat}, which is not solved yet"
  | .unsolvedWire wire => s!"wire {wire.toNat} is read before it is solved"
  | .incomplete solved wires => s!"solved {solved} of {wires} wires"
  | .wireOutOfRange wire wires =>
    s!"wire {wire.toNat} is out of range, the system has {wires} wires"
  | .coeffOutOfRange coeff => s!"coefficient id {coeff.toNat} is out of range"
  | .malformed instruction fault =>
    s!"instruction {instruction.toNat} is malformed: {fault.message}"
  | .blueprint error => s!"blueprint error: {error.message}"

/-- A blueprint's error met while solving (`FatalError` from a blueprint's `Error`). -/
def FatalError.ofBlueprint : Blueprint.Error → FatalError
  | .unsupported b capability => .unsupportedBlueprint b capability
  | error => .blueprint error

/-- A circuit's error met while solving an instruction (`from_system`). -/
def FatalError.ofCircuit (instruction : UInt32) : Circuit.Error → FatalError
  | .blueprint error => ofBlueprint error
  | .unknownBlueprint id => .unknownBlueprint id
  | error => .malformed instruction (.refused error)

/-- Why a circuit was not solved (the `Error` of solving). -/
inductive Error (F : PrimeField) where
  | witnessSize (expected got : Nat)
  | missingHints (names : List String)
  | hint (id : HintId) (name cause : String)
  | unsatisfied (failure : Unsatisfied F)
  | fatal (error : FatalError)
deriving DecidableEq

/-- The error in words. -/
def Error.message {F : PrimeField} : Error F → String
  | .witnessSize expected got => s!"invalid witness size, got {got}, expected {expected}"
  | .missingHints names => "missing hint functions: " ++ ", ".intercalate names
  | .hint id name cause => "hint " ++ name ++ " (" ++ Text.hexWord id ++ ") failed: " ++ cause
  | .unsatisfied failure =>
    s!"constraint #{failure.constraint.toNat} is not satisfied: " ++ failure.detail
  | .fatal error => "fatal solver error: " ++ error.message

/-- Whether an error shows a fault of the circuit (`is_fatal`). -/
def Error.isFatal {F : PrimeField} : Error F → Bool
  | .fatal _ => true
  | _ => false

end CircuitWitness.Solver
