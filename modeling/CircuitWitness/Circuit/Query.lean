import CircuitWitness.Circuit.Error

/-!
# Reading a circuit

Instructions are decoded to operations: a rank-one constraint, a gate or a hint call. All other
questions about the content of a circuit go through this view or through the ranges of words.
-/

namespace CircuitWitness

/-- What an instruction says (the decoded forms that `instruction_wires` tells apart). -/
inductive Operation where
  | r1c (c : R1C)
  | gate (g : Gate)
  | hint (h : HintCall)
deriving DecidableEq, Repr

namespace Operation

/-- The wires that the operation touches; of a hint those that it reads (the first part of
    `instruction_wires`). -/
def reads : Operation → List WireId
  | .r1c c => c.terms.map Term.wire
  | .gate g => g.wires
  | .hint h => h.terms.map Term.wire

/-- The wires that the operation defines unless they are inputs or defined before (as
    `replay_levels` takes it from `instruction_wires`). -/
def defines : Operation → List WireId
  | .r1c c => c.terms.map Term.wire
  | .gate g => g.wires
  | .hint h => h.outputs

end Operation

namespace Circuit

variable {F : PrimeField}

/-! ## Instructions -/

/-- The blueprint with an id (`System.blueprint`). -/
def blueprintAt (c : Circuit F) (id : BlueprintId) : Except Error Blueprint :=
  match c.blueprints[id.toNat]? with
  | some b => .ok b
  | none => .error (.unknownBlueprint id)

/-- The range of words of an instruction (`get_call_data`). -/
def callDataOf (c : Circuit F) (i : Instruction) : Except Error CallData := do
  let b ← c.blueprintAt i.blueprint
  if c.callData.length < i.start.toNat then throw (.blueprint (.malformed b .startPastEnd))
  let rest := c.callData.drop i.start.toNat
  let n ← (b.callDataLength rest).mapError Error.blueprint
  return rest.take n

/-- The operation of an instruction (the decoding in `instruction_wires` and
    `check_instruction_operands`). -/
def operationOf (c : Circuit F) (i : Instruction) : Except Error Operation := do
  let b ← c.blueprintAt i.blueprint
  let words ← c.callDataOf i
  match b.kind with
  | .r1c => Operation.r1c <$> (b.r1cOf words).mapError Error.blueprint
  | .gate => Operation.gate <$> (b.gateOf words).mapError Error.blueprint
  | .hint => Operation.hint <$> (b.hintOf words).mapError Error.blueprint

/-- Reads the constraints among some instructions, each from its blueprint and words (the loop of
    `get_constraints` and `get_sparse_constraints`). -/
def readConstraints {α : Type} (c : Circuit F)
    (read : Blueprint → CallData → Except Blueprint.Error α) :
    List Instruction → Except Error (List α)
  | [] => .ok []
  | i :: rest => do
    let b ← c.blueprintAt i.blueprint
    if b.kind = .hint then c.readConstraints read rest
    else
      let words ← c.callDataOf i
      let x ← (read b words).mapError Error.blueprint
      let xs ← c.readConstraints read rest
      return x :: xs

/-- All rank-one constraints, in order; a gate among them is an error (`get_constraints`). -/
def constraints (c : Circuit F) : Except Error (List R1C) :=
  c.readConstraints Blueprint.r1cOf c.instructions

/-- All gates, in order; a rank-one constraint among them is an error (`get_sparse_constraints`). -/
def gates (c : Circuit F) : Except Error (List Gate) :=
  c.readConstraints Blueprint.gateOf c.instructions

/-! ## Ranges of ids -/

/-- Refuses a wire that the circuit does not have (`check_wire`). -/
def checkWire (c : Circuit F) (w : WireId) : Except Error Unit :=
  if w.toNat < c.wireCount then .ok () else .error (.wireOutOfRange w c.wireCount)

/-- Refuses a coefficient that the circuit does not have (`check_coeff`). -/
def checkCoeff (c : Circuit F) (q : CoeffId) : Except Error Unit :=
  if q.toNat < c.coeffs.size then .ok () else .error (.coeffOutOfRange q c.coeffs.size)

/-- Refuses a term with an unknown coefficient or wire (`check_term`). -/
def checkTerm (c : Circuit F) (t : Term) : Except Error Unit := do
  c.checkCoeff t.coeff
  c.checkWire t.wire

/-- Refuses an operation that refers to unknown coefficients or wires
    (`check_instruction_operands`). -/
def checkOperation (c : Circuit F) : Operation → Except Error Unit
  | .r1c r => r.terms.forM c.checkTerm
  | .gate g => do
    g.wires.forM c.checkWire
    g.coeffs.forM c.checkCoeff
  | .hint h => do
    h.terms.forM c.checkTerm
    h.outputs.forM c.checkWire

/-! ## Names and descriptions -/

/-- The description of a constraint (`debug_info`). -/
def description? (c : Circuit F) (constraint : UInt32) : Option LogEntry :=
  match c.descriptionOf.find? constraint with
  | some id => c.descriptions[id.toNat]?
  | none => none

/-- The name of a wire: that of the input, or the number of the internal wire
    (`variable_to_string`). -/
def wireText (c : Circuit F) (w : WireId) : String :=
  match (c.publicNames ++ c.secretNames)[w.toNat]? with
  | some name => name
  | none =>
    if w.toNat < c.wireCount then s!"v{w.toNat - c.inputCount}" else s!"<wire #{w.toNat}>"

/-- The names of coefficients and wires (`System` as a `Resolver`). -/
def resolver (c : Circuit F) : Resolver := ⟨c.coeffs.text, c.wireText⟩

end Circuit

end CircuitWitness
