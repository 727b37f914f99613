import CircuitWitness.Constraint.Term

/-!
# Dependency levels

Instructions are placed in levels while they are appended. An instruction stands one level above
the highest that defines a wire it reads; wires that are inputs do not count. A constraint defines
every wire that it touches and that is neither an input nor defined before it; a hint defines its
outputs.

The levels may also be given from outside. Then every instruction must stand in exactly one of
them, and the wires are defined again in the order of the instructions.
-/

namespace CircuitWitness

/-- Why lists of instructions are no levels (the errors of `instruction_levels`). -/
inductive LevelFault where
  | unknownInstruction (index : UInt32)
  | repeatedInstruction (index : UInt32)
  | missingInstruction (index : Nat)
deriving DecidableEq, Repr

/-- The fault in words. -/
def LevelFault.message : LevelFault → String
  | .unknownInstruction index => s!"instruction {index.toNat} does not exist"
  | .repeatedInstruction index => s!"instruction {index.toNat} appears twice"
  | .missingInstruction index => s!"instruction {index} is not leveled"

/-- The instructions of each level, and the level that defines each wire (`Levels`). -/
structure Levels where
  schedule : List (List UInt32)
  definedAt : OrderedMap WireId Nat

namespace Levels

/-- No levels (`Levels.default`). -/
def empty : Levels := ⟨[], .empty⟩

instance : Inhabited Levels := ⟨empty⟩

/-- The level that defines a wire (`wire_level`). -/
def level? (s : Levels) (w : WireId) : Option Nat := s.definedAt.find? w

/-- Whether an instruction defines a wire (`is_defined`). -/
def isDefined (s : Levels) (w : WireId) : Bool := (s.level? w).isSome

/-! ## Appending -/

/-- Adds an instruction to the end of a level; levels in between are empty (`Levels.push`). -/
def place (index : UInt32) : Nat → List (List UInt32) → List (List UInt32)
  | 0, [] => [[index]]
  | 0, l :: rest => (l ++ [index]) :: rest
  | n + 1, [] => [] :: place index n []
  | n + 1, l :: rest => l :: place index n rest

/-- The lowest level above all levels that define one of the wires; inputs do not count (the level
    in `add_constraint` and `add_hint`). -/
def above (s : Levels) (inputCount : Nat) (wires : List WireId) : Nat :=
  ((wires.filter fun w => inputCount ≤ w.toNat).filterMap s.level?).foldl
    (fun n l => max n (l + 1)) 0

/-- Places an instruction, which defines the given wires (`Levels.commit`, with
    `set_wire_level`). -/
def commit (s : Levels) (index : UInt32) (level : Nat) (outputs : List WireId) : Levels :=
  ⟨place index level s.schedule, outputs.foldl (fun m w => m.insert w level) s.definedAt⟩

/-- The wires that are neither inputs nor defined (the outputs in `add_constraint`). -/
def fresh (s : Levels) (inputCount : Nat) (wires : List WireId) : List WireId :=
  wires.filter fun w => inputCount ≤ w.toNat && !s.isDefined w

/-- Places a constraint that touches the given wires (`Levels.add_constraint`). -/
def addConstraint (s : Levels) (inputCount : Nat) (index : UInt32) (wires : List WireId) :
    Levels :=
  s.commit index (s.above inputCount wires) (s.fresh inputCount wires)

/-- Places a hint (`Levels.add_hint`). -/
def addHint (s : Levels) (inputCount : Nat) (index : UInt32) (inputs outputs : List WireId) :
    Levels :=
  s.commit index (s.above inputCount inputs) outputs

/-! ## Given levels -/

/-- Enters the instructions of a level into the table of the levels of all instructions (the inner
    loop of `instruction_levels`). -/
def enterLevel (level : Nat) (table : List (Option Nat)) (indices : List UInt32) :
    Except LevelFault (List (Option Nat)) :=
  indices.foldlM (fun table index =>
    match table[index.toNat]? with
    | none => .error (.unknownInstruction index)
    | some (some _) => .error (.repeatedInstruction index)
    | some none => .ok (table.set index.toNat (some level))) table

/-- Enters level after level (the outer loop of `instruction_levels`). -/
def enterLevels : Nat → List (Option Nat) → List (List UInt32) →
    Except LevelFault (List (Option Nat))
  | _, table, [] => .ok table
  | level, table, indices :: rest => do
    let table ← enterLevel level table indices
    enterLevels (level + 1) table rest

/-- The levels in a table without gaps (the end of `instruction_levels`). -/
def completeTable : Nat → List (Option Nat) → Except LevelFault (List Nat)
  | _, [] => .ok []
  | index, none :: _ => .error (.missingInstruction index)
  | index, some level :: rest => do
    let levels ← completeTable (index + 1) rest
    return level :: levels

/-- The level of each of `count` instructions, if each stands in exactly one level
    (`instruction_levels`). -/
def instructionLevels (schedule : List (List UInt32)) (count : Nat) :
    Except LevelFault (List Nat) := do
  let table ← enterLevels 0 (List.replicate count none) schedule
  completeTable 0 table

/-- Defines the wires that are neither inputs nor defined, at a level (`Levels.replay`). -/
def define (inputCount : Nat) (level : Nat) (m : OrderedMap WireId Nat) (wires : List WireId) :
    OrderedMap WireId Nat :=
  wires.foldl (fun m w => if inputCount ≤ w.toNat && !m.contains w then m.insert w level else m) m

end Levels

end CircuitWitness
