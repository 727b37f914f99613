import CircuitWitness.Circuit.Query

/-!
# Building a circuit

Variables are declared public first, then secret, then internal. Constraints and hints are packed
into the buffer, checked and placed in the levels. An operation that can fail is a `Build`: it
says what the circuit is after a failure, too.

Results:
* `pack_error`: a failed packing leaves the circuit as it was, if it did not change the words
  before it.
-/

namespace CircuitWitness.Circuit

variable {F : PrimeField}

/-- An operation on a circuit that may fail. -/
abbrev Build (F : PrimeField) := EStateM Error (Circuit F)

/-- Asks the circuit, and fails if it refuses. -/
def ask {α : Type} (question : Circuit F → Except Error α) : Build F α := fun c =>
  match question c with
  | .ok x => .ok x c
  | .error e => .error e c

/-! ## Coefficients, blueprints, locations -/

/-- The id of a coefficient, which the circuit holds from then on (`System.add_coeff`). -/
def addCoeff (c : Circuit F) (x : F.Elem) : CoeffId × Circuit F :=
  let (id, coeffs) := c.coeffs.add x
  (id, { c with coeffs })

/-- The term of a coefficient and a wire (`System.make_term`). -/
def addTerm (c : Circuit F) (x : F.Elem) (w : WireId) : Term × Circuit F :=
  let (id, c) := c.addCoeff x
  (⟨id, w⟩, c)

/-- The id of a blueprint, which the circuit holds from then on (`add_blueprint`). -/
def addBlueprint (c : Circuit F) (b : Blueprint) : BlueprintId × Circuit F :=
  let (id, blueprints) := internIn c.blueprints b
  (UInt32.ofNat id, { c with blueprints })

/-- The number of a source location, which the circuit holds from then on (`add_location` on the
    `symbols_mut` of a `System`). -/
def addLocation (c : Circuit F) (function file : String) (line : UInt32) : UInt32 × Circuit F :=
  let (id, symbols) := c.symbols.addLocation function file line
  (id, { c with symbols })

/-! ## Variables -/

/-- Declares a public input (`add_public_variable`). -/
def addPublic (name : String) : Build F WireId := do
  let c ← get
  if c.secretNames ≠ [] ∨ c.internalCount ≠ 0 then throw (.variableOrder .publicTooLate)
  set { c with publicNames := c.publicNames ++ [name] }
  return UInt32.ofNat c.publicNames.length

/-- Declares a secret input (`add_secret_variable`). -/
def addSecret (name : String) : Build F WireId := do
  let c ← get
  if c.internalCount ≠ 0 then throw (.variableOrder .secretTooLate)
  set { c with secretNames := c.secretNames ++ [name] }
  return UInt32.ofNat c.inputCount

/-- Declares an internal wire (`add_internal_variable`). -/
def addInternal (c : Circuit F) : WireId × Circuit F :=
  (UInt32.ofNat c.wireCount, { c with internalCount := c.internalCount + 1 })

/-! ## Instructions -/

/-- The blueprint with an id, if it is of a kind that the circuit may hold (`check_blueprint`). -/
def blueprintFor (c : Circuit F) (id : BlueprintId) (expected : InstructionKind) :
    Except Error Blueprint := do
  let b ← c.blueprintAt id
  if b.kind ≠ expected then throw (.blueprintKindMismatch id expected b.kind)
  if !c.kind.allows b.kind then throw (.circuitKindMismatch c.kind b.kind)
  return b

/-- Appends words to the buffer (the `truncate` after a failed packing in `add_r1c`,
    `add_sparse_r1c`, `add_hint`). A failure takes back what was appended. -/
def pack (write : Blueprint.Writer Unit) : Build F Unit := fun c =>
  match write.run c.callData with
  | .ok _ words => .ok () { c with callData := words }
  | .error e words =>
    .error (.blueprint e) { c with callData := words.take c.callData.length }

/-- The gate of the words from a place on (in `add_sparse_r1c`). A failure takes these words
    back. -/
def unpackGate (b : Blueprint) (start : Nat) : Build F Gate := fun c =>
  match b.gateOf (c.callData.drop start) with
  | .ok g => .ok g c
  | .error e => .error (.blueprint e) { c with callData := c.callData.take start }

/-- Appends the instruction whose words start at a place (`push_instruction`). -/
def appendInstruction (id : BlueprintId) (b : Blueprint) (start : Nat) (c : Circuit F) :
    UInt32 × Circuit F :=
  (UInt32.ofNat c.instructions.length,
    { c with
      instructions := c.instructions ++
        [⟨id, UInt32.ofNat c.constraintCount, UInt64.ofNat start⟩]
      constraintCount := c.constraintCount + b.constraintCount })

/-- Places an instruction that touches the given wires (the end of `add_r1c` and
    `add_sparse_r1c`). -/
def levelConstraint (index : UInt32) (wires : List WireId) (c : Circuit F) : Circuit F :=
  { c with levels := c.levels.addConstraint c.inputCount index wires }

/-- Adds a rank-one constraint and gives its number (`add_r1c`). -/
def addR1C (r : R1C) (id : BlueprintId) : Build F UInt32 := do
  let b ← ask (·.blueprintFor id .r1c)
  ask fun c => r.terms.forM c.checkTerm
  let start := (← get).callData.length
  pack (b.compressR1C r)
  let index ← modifyGet (appendInstruction id b start)
  modify (levelConstraint index (r.terms.map Term.wire))
  return UInt32.ofNat (← get).constraintCount - 1

/-- Adds a gate and gives its number (`add_sparse_r1c`). It is placed as its blueprint reads it
    back, since a layout may imply coefficients. -/
def addGate (g : Gate) (id : BlueprintId) : Build F UInt32 := do
  let b ← ask (·.blueprintFor id .gate)
  ask fun c => [g.xa, g.xb, g.xc].forM c.checkWire
  ask fun c => g.coeffs.forM c.checkCoeff
  let start := (← get).callData.length
  pack (b.compressGate g)
  let encoded ← unpackGate b start
  let index ← modifyGet (appendInstruction id b start)
  modify (levelConstraint index encoded.wires)
  return UInt32.ofNat (← get).constraintCount - 1

/-- Refuses outputs that are unknown, repeated, inputs or defined, in this order for each (in
    `add_hint`). -/
def checkOutputs (c : Circuit F) : List WireId → List WireId → Except Error Unit
  | _, [] => .ok ()
  | earlier, w :: rest => do
    c.checkWire w
    if w ∈ earlier then throw (.wireAlreadyDefined w)
    if w.toNat < c.inputCount || c.levels.isDefined w then throw (.wireAlreadyDefined w)
    c.checkOutputs (earlier ++ [w]) rest

/-- Refuses a hint id that is not that of the name, or that stands for another name (in
    `add_hint`). -/
def checkHintName (c : Circuit F) (id : HintId) (name : String) : Except Error Unit := do
  let expected := hintId name
  if id ≠ expected then throw (.hintIdMismatch name expected id)
  match c.hintNames.find? expected with
  | some existing => if existing ≠ name then throw (.hintIdCollision expected existing name)
  | none => pure ()

/-- Adds a hint call and notes the name of the hint (`add_hint`). Its outputs must be internal wires
    that no instruction defines. -/
def addHint (h : HintCall) (name : String) (id : BlueprintId) : Build F Unit := do
  let b ← ask (·.blueprintFor id .hint)
  ask (·.checkHintName h.hint name)
  ask fun c => h.terms.forM c.checkTerm
  ask (·.checkOutputs [] h.outputs)
  let start := (← get).callData.length
  pack (b.compressHint h)
  modify fun c => { c with hintNames := c.hintNames.insert (hintId name) name }
  let index ← modifyGet (appendInstruction id b start)
  modify fun c =>
    { c with
      levels := c.levels.addHint c.inputCount index (h.terms.map Term.wire) h.outputs }

/-! ## Descriptions and logs -/

/-- Describes a constraint, in place of any earlier description (`add_debug_info`). -/
def describe (constraint : UInt32) (entry : LogEntry) : Build F Unit := do
  let c ← get
  if c.constraintCount ≤ constraint.toNat then
    throw (.constraintOutOfRange constraint c.constraintCount)
  set { c with
    descriptions := c.descriptions ++ [entry]
    descriptionOf := c.descriptionOf.insert constraint (UInt32.ofNat c.descriptions.length) }

/-- Adds a log statement (`add_log`). -/
def addLog (entry : LogEntry) : Build F Unit := do
  ask fun c => entry.exprs.flatten.forM c.checkTerm
  modify fun c => { c with logs := c.logs ++ [entry] }

/-! ## Levels -/

/-- The levels of a given schedule: the wires are defined in the order of the instructions
    (`replay_levels`). -/
def replay (c : Circuit F) (schedule : List (List UInt32)) : Except Error Levels := do
  let levels ←
    (Levels.instructionLevels schedule c.instructions.length).mapError Error.invalidLevels
  let definedAt ← (c.instructions.zip levels).foldlM
    (fun m (i, level) => do
      let op ← c.operationOf i
      return Levels.define c.inputCount level m op.defines) .empty
  return ⟨schedule, definedAt⟩

/-- Puts the instructions into the given levels (`set_levels`). That the levels respect the
    dependencies is left to the caller. -/
def setLevels (schedule : List (List UInt32)) : Build F Unit := do
  let levels ← ask (·.replay schedule)
  modify fun c => { c with levels }

/-! ## Failures -/

theorem pack_error {write : Blueprint.Writer Unit} {c c' : Circuit F} {e : Error}
    (h : (pack write).run c = .error e c')
    (keeps : ∀ e words, write.run c.callData = .error e words → c.callData <+: words) :
    c' = c := by
  simp only [EStateM.run, pack] at h
  split at h
  · simp at h
  · next e words failed =>
    obtain ⟨tail, rfl⟩ := keeps e words failed
    simp only [EStateM.Result.error.injEq] at h
    rw [← h.2]; simp

end CircuitWitness.Circuit
