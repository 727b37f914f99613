import CircuitWitness.Circuit.Unconstrained
import CircuitWitness.Proofs.Circuit.Leveling
import CircuitWitness.Proofs.Circuit.Listing

/-!
# Special layouts

Products, sums and bits can be packed in layouts of their own or as any other gate. A circuit that
is built with the generic layout in place of some special ones has other words in its buffer, at
other places, and instructions that lead to them. Everything else is the same: what the instructions
say, how they are numbered and leveled, and so what can be asked of the circuit.

Results:
* `apply_withCode`: an edit does not look at the instructions and the buffer.
* `Alike.added`, `Alike.recode`: adding the same operation in two layouts keeps circuits alike.
* `Recoded.alike`: circuits that are built with other layouts are alike.
* `Alike.gates_eq`, `Alike.unconstrainedWires_eq`: they have the same gates, and leave the same
  wires without a constraint.
-/

namespace CircuitWitness

variable {F : PrimeField}

namespace Circuit

variable {c c' d : Circuit F} {is : List Instruction} {ws : CallData}

/-! ## Code -/

/-- The circuit with other instructions and another buffer. -/
def withCode (c : Circuit F) (instructions : List Instruction) (callData : CallData) : Circuit F :=
  { c with instructions, callData }

theorem checkOutputs_withCode {earlier l : List WireId} :
    (c.withCode is ws).checkOutputs earlier l = c.checkOutputs earlier l := by
  induction l generalizing earlier with
  | nil => rfl
  | cons x l ih =>
    unfold checkOutputs
    rw [ih]
    rfl

theorem Grown.withCode (h : Grown c c') (is : List Instruction) (ws : CallData) :
    Grown (c.withCode is ws) (c'.withCode is ws) :=
  { h with instructions := rfl, callData := rfl }

theorem Addition.withCode {op : Operation} {noted : List WireId} {id : BlueprintId} {b : Blueprint}
    {words : CallData} (h : c.Addition op noted id b words) (is : List Instruction)
    (ws : CallData) : (c.withCode is ws).Addition op noted id b words :=
  { h with }

/-- An edit does the same to a circuit with other code: it lets the same tables grow, or adds the
    same instruction. -/
inductive AppliesTo (c : Circuit F) (e : Edit F) (is : List Instruction) (ws : CallData) :
    Prop where
  | grown (grown : Grown c (e.apply c))
    (same : e.apply (c.withCode is ws) = (e.apply c).withCode is ws)
  | added {op : Operation} {noted : List WireId} {id : BlueprintId} {b : Blueprint}
    {words : CallData} {names : OrderedMap HintId String}
    (addition : c.Addition op noted id b words)
    (left : e.apply c = c.added op noted id b words names)
    (right : e.apply (c.withCode is ws) = (c.withCode is ws).added op noted id b words names)

theorem AppliesTo.refused {e : Edit F} (left : e.apply c = c)
    (right : e.apply (c.withCode is ws) = c.withCode is ws) : AppliesTo c e is ws := by
  apply AppliesTo.grown
  · rw [left]
    exact .refl c
  · rw [left, right]

/-- Whether a constraint is added does not depend on the code. -/
theorem AppliesTo.r1c (c : Circuit F) (r : R1C) (id : BlueprintId) (is : List Instruction)
    (ws : CallData) : AppliesTo c (.r1c r id) is ws := by
  have taken {b : Blueprint} (found : c.blueprintFor id .r1c = .ok b)
      (inRange : r.terms.forM c.checkTerm = .ok ()) (small : r.wordCount < wordRange) :
      AppliesTo c (.r1c r id) is ws :=
    .added (.of_r1c found inRange small) (apply_r1c found inRange small)
      (apply_r1c found inRange small)
  obtain ⟨_, refused⟩ | ⟨b, found, inRange, small, -⟩ := addR1C_run r id c
  · obtain ⟨_, refused'⟩ | ⟨b, found, inRange, small, -⟩ := addR1C_run r id (c.withCode is ws)
    · exact .refused (congrArg stateAfter refused) (congrArg stateAfter refused')
    · exact taken found inRange small
  · exact taken found inRange small

/-- Whether a gate is added does not depend on the code. -/
theorem AppliesTo.gate (c : Circuit F) (g : Gate) (id : BlueprintId) (is : List Instruction)
    (ws : CallData) : AppliesTo c (.gate g id) is ws := by
  have taken {b : Blueprint} (found : c.blueprintFor id .gate = .ok b)
      (wires : [g.xa, g.xb, g.xc].forM c.checkWire = .ok ())
      (coeffs : g.coeffs.forM c.checkCoeff = .ok ()) (fits : g.shapeFault? b = none) :
      AppliesTo c (.gate g id) is ws :=
    .added (.of_gate found wires coeffs) (apply_gate found wires coeffs fits)
      (apply_gate found wires coeffs fits)
  obtain ⟨_, refused⟩ | ⟨b, found, wires, coeffs, fits, -⟩ := addGate_run g id c
  · obtain ⟨_, refused'⟩ | ⟨b, found, wires, coeffs, fits, -⟩ :=
      addGate_run g id (c.withCode is ws)
    · exact .refused (congrArg stateAfter refused) (congrArg stateAfter refused')
    · exact taken found wires coeffs fits
  · exact taken found wires coeffs fits

/-- Whether a hint call is added does not depend on the code. -/
theorem AppliesTo.hint (c : Circuit F) (call : HintCall) (name : String) (id : BlueprintId)
    (is : List Instruction) (ws : CallData) : AppliesTo c (.hint call name id) is ws := by
  have taken {b : Blueprint} (found : c.blueprintFor id .hint = .ok b)
      (named : c.checkHintName call.hint name = .ok ())
      (inRange : call.terms.forM c.checkTerm = .ok ())
      (outputs : c.checkOutputs [] call.outputs = .ok ()) (small : call.wordCount < wordRange) :
      AppliesTo c (.hint call name id) is ws :=
    .added (.of_hint found inRange outputs small) (apply_hint found named inRange outputs small)
      (apply_hint found named inRange (checkOutputs_withCode.trans outputs) small)
  obtain ⟨_, refused⟩ | ⟨b, found, named, inRange, outputs, small, -⟩ := addHint_run call name id c
  · obtain ⟨_, refused'⟩ | ⟨b, found, named, inRange, outputs, small, -⟩ :=
      addHint_run call name id (c.withCode is ws)
    · exact .refused (congrArg stateAfter refused) (congrArg stateAfter refused')
    · exact taken found named inRange (checkOutputs_withCode.symm.trans outputs) small
  · exact taken found named inRange outputs small

/-- An edit that leaves the levels to the circuit does not look at the code. -/
theorem apply_withCode (c : Circuit F) {e : Edit F} (automatic : e.isAutomatic)
    (is : List Instruction) (ws : CallData) : AppliesTo c e is ws := by
  have outcome := e.apply_outcome c
  cases e with
  | coeff | blueprint | location | internal =>
    obtain ⟨grown⟩ := outcome
    exact .grown grown rfl
  | publicInput name =>
    obtain ⟨grown⟩ := outcome
    refine .grown grown ?_
    simp only [Edit.apply, addPublic, EStateM.run_bind, EStateM.run_get, withCode]
    split <;> rfl
  | secretInput name =>
    obtain ⟨grown⟩ := outcome
    refine .grown grown ?_
    simp only [Edit.apply, addSecret, EStateM.run_bind, EStateM.run_get, withCode]
    split <;> rfl
  | describe constraint entry =>
    obtain ⟨grown⟩ := outcome
    refine .grown grown ?_
    simp only [Edit.apply, describe, EStateM.run_bind, EStateM.run_get, withCode]
    split <;> rfl
  | log entry =>
    obtain ⟨grown⟩ := outcome
    refine .grown grown ?_
    have same : (c.withCode is ws).checkTerm = c.checkTerm := rfl
    simp only [Edit.apply, addLog, EStateM.run_bind, run_ask, same]
    cases entry.exprs.flatten.forM c.checkTerm <;> rfl
  | levels schedule => cases automatic
  | r1c r id => exact .r1c c r id is ws
  | gate g id => exact .gate c g id is ws
  | hint call name id => exact .hint c call name id is ws

/-! ## Circuits in other code -/

/-- Circuits that differ in their code alone, and whose code says the same. -/
structure Alike (c d : Circuit F) : Prop where
  code : ∃ is ws, d = c.withCode is ws
  numbers : d.instructions.map Instruction.constraint = c.instructions.map Instruction.constraint
  operations : ∃ ops, c.HasOperations ops ∧ d.HasOperations ops

theorem Alike.length (h : Alike c d) : d.instructions.length = c.instructions.length := by
  have := congrArg List.length h.numbers
  rwa [List.length_map, List.length_map] at this

theorem Alike.levels_eq (h : Alike c d) : d.levels = c.levels := by
  obtain ⟨is, ws, rfl⟩ := h.code
  rfl

/-- At each place the same number is given to the same operation. -/
theorem Alike.instruction (h : c.Alike d) {p : ℕ} {i : Instruction}
    (found : c.instructions[p]? = some i) : ∃ j op, d.instructions[p]? = some j ∧
      j.constraint = i.constraint ∧ c.operationOf i = .ok op ∧ d.operationOf j = .ok op ∧
      c.InRange op := by
  obtain ⟨ops, hc, hd⟩ := h.operations
  obtain ⟨op, listed, decoded⟩ := hc.getElem? found
  have number := congrArg (fun l => l[p]?) h.numbers
  simp only [List.getElem?_map, found, Option.map_some] at number
  obtain ⟨j, found', number⟩ := Option.map_eq_some_iff.1 number
  obtain ⟨op', listed', decoded'⟩ := hd.getElem? found'
  obtain rfl := Option.some.inj (listed.symm.trans listed')
  exact ⟨j, op, found', number, decoded, decoded', hc.inRange op (List.mem_of_getElem? listed)⟩

theorem Alike.grown {d' : Circuit F} (h : Alike c d) (left : Grown c c') (right : Grown d d')
    (code : ∃ is ws, d' = c'.withCode is ws) : Alike c' d' := by
  obtain ⟨ops, hc, hd⟩ := h.operations
  refine ⟨code, ?_, ops, hc.grown left, hd.grown right⟩
  rw [left.instructions, right.instructions]
  exact h.numbers

/-- Adding the same operation in two layouts keeps circuits alike. -/
theorem Alike.added (h : Alike c d) {op : Operation} {noted : List WireId} {id id' : BlueprintId}
    {b b' : Blueprint} {words words' : CallData} (left : c.Addition op noted id b words)
    (right : d.Addition op noted id' b' words') (small : c.callData.length < 2 ^ 64)
    (small' : d.callData.length < 2 ^ 64) (names : OrderedMap HintId String) :
    Alike (c.added op noted id b words names) (d.added op noted id' b' words' names) := by
  obtain ⟨ops, hc, hd⟩ := h.operations
  have count : b'.constraintCount = b.constraintCount := by
    rw [constraintCount_eq, constraintCount_eq, left.reads.kind, right.reads.kind]
  have index : d.nextIndex = c.nextIndex := by rw [nextIndex, nextIndex, h.length]
  obtain ⟨is, ws, code⟩ := h.code
  have number : d.constraintCount = c.constraintCount := by rw [code]; rfl
  refine ⟨⟨(d.added op noted id' b' words' names).instructions,
    (d.added op noted id' b' words' names).callData, ?_⟩, ?_, ops ++ [op],
    hc.added left small names,
    hd.added right small' names⟩
  · simp only [Circuit.added, appended, Circuit.withCode, index, count]
    rw [code]
    rfl
  · simp only [Circuit.added, appended, List.map_append, h.numbers, number, List.map_singleton]

theorem Alike.gates_eq (h : Alike c d) (wf : c.WellFormed) (kind : c.kind = .sparse) :
    ∃ gs, c.gates = .ok gs ∧ d.gates = .ok gs := by
  obtain ⟨ops, hc, hd⟩ := h.operations
  have noRankOne : ∀ op ∈ ops, op.kind ≠ .r1c := by
    intro op mem rankOne
    have allowed := hc.allows wf op mem
    rw [kind, rankOne] at allowed
    cases allowed
  exact ⟨_, readConstraints_gateOf hc.decoded noRankOne,
    readConstraints_gateOf hd.decoded noRankOne⟩

theorem Alike.unconstrainedWires_eq (h : Alike c d) :
    d.unconstrainedWires = c.unconstrainedWires := by
  obtain ⟨ops, hc, hd⟩ := h.operations
  have left := except_mapM_of_map hc.decoded
  have right := except_mapM_of_map hd.decoded
  obtain ⟨is, ws, rfl⟩ := h.code
  unfold unconstrainedWires
  rw [left, right]
  rfl

/-! ## Layouts -/

/-- Whether a gate is accepted. -/
def accepts (c : Circuit F) (g : Gate) (id : BlueprintId) : Bool :=
  match (addGate g id).run c with
  | .ok _ _ => true
  | .error _ _ => false

/-- A gate that is accepted passes its checks. -/
theorem checks_of_accepts {g : Gate} {id : BlueprintId} (h : c.accepts g id) : ∃ b,
    c.blueprintFor id .gate = .ok b ∧ [g.xa, g.xb, g.xc].forM c.checkWire = .ok () ∧
      g.coeffs.forM c.checkCoeff = .ok () ∧ g.shapeFault? b = none := by
  unfold accepts at h
  obtain ⟨_, refused⟩ | ⟨b, found, wires, coeffs, fits, -⟩ := addGate_run g id c
  · rw [refused] at h
    cases h
  · exact ⟨b, found, wires, coeffs, fits⟩

/-- The same edit keeps circuits alike. -/
theorem Alike.edit (h : Alike c d) {e : Edit F} (automatic : e.isAutomatic)
    (small : (e.apply c).callData.length < 2 ^ 64)
    (small' : (e.apply d).callData.length < 2 ^ 64) : Alike (e.apply c) (e.apply d) := by
  have before := Nat.lt_of_le_of_lt (length_callData_le e c) small
  have before' := Nat.lt_of_le_of_lt (length_callData_le e d) small'
  obtain ⟨is, ws, rfl⟩ := h.code
  cases apply_withCode c automatic is ws with
  | grown grown same =>
    rw [same]
    exact h.grown grown (grown.withCode is ws) ⟨is, ws, rfl⟩
  | added addition left right =>
    rw [left, right]
    exact h.added addition (addition.withCode is ws) before before' _

/-- Circuits stay alike if a gate is added to the one, and to the other, in the generic layout, what
    its own layout makes of it. -/
theorem Alike.recode (h : Alike c d) {g g' : Gate} {id id' : BlueprintId} {b : Blueprint}
    (known : c.blueprintAt id = .ok b) (accepted : c.accepts g id)
    (decoded : b.gateOf (g.words b) = .ok g') (generic : d.blueprintAt id' = .ok .genericGate)
    (small : ((Edit.gate g id).apply c).callData.length < 2 ^ 64)
    (small' : ((Edit.gate g' id').apply d).callData.length < 2 ^ 64) :
    Alike ((Edit.gate g id).apply c) ((Edit.gate g' id').apply d) := by
  have before := Nat.lt_of_le_of_lt (length_callData_le _ c) small
  have before' := Nat.lt_of_le_of_lt (length_callData_le _ d) small'
  obtain ⟨b', found, wires, coeffs, fits⟩ := checks_of_accepts accepted
  obtain ⟨known', kind, allowed⟩ := blueprintFor_ok.1 found
  obtain rfl := Except.ok.inj (known.symm.trans known')
  obtain rfl := Except.ok.inj ((Blueprint.gateOf_words kind).symm.trans decoded)
  obtain ⟨is, ws, rfl⟩ := h.code
  have left := Addition.of_gate found wires coeffs
  -- What the layout makes of the gate passes the checks as well.
  obtain ⟨inRange, table⟩ := left.inRange
  have found' : (c.withCode is ws).blueprintFor id' .gate = .ok .genericGate :=
    blueprintFor_ok.2 ⟨generic, rfl, by rwa [kind] at allowed⟩
  have wires' : [(b.recoded g).xa, (b.recoded g).xb, (b.recoded g).xc].forM
      (c.withCode is ws).checkWire = .ok () :=
    except_forM_ok.2 fun x hx => checkWire_ok.2 (inRange x hx)
  have coeffs' : (b.recoded g).coeffs.forM (c.withCode is ws).checkCoeff = .ok () :=
    except_forM_ok.2 fun q hq => checkCoeff_ok.2 (table q hq)
  have right : (c.withCode is ws).Addition (.gate (b.recoded g))
      (c.levels.fresh c.inputCount (b.recoded g).wires) id' .genericGate
      ((b.recoded g).words .genericGate) := .of_gate found' wires' coeffs'
  rw [apply_gate found wires coeffs fits, apply_gate found' wires' coeffs' rfl]
  exact h.added left right before before' _

/-- Circuits of gates that were built by the same edits, except that some gates which the first
    accepts in a special layout are added to the second in the generic one, as what the special
    layout makes of them. -/
inductive Recoded : Circuit F → Circuit F → Prop where
  | empty : Recoded (.empty F .sparse) (.empty F .sparse)
  | edit {c d : Circuit F} (e : Edit F) (automatic : e.isAutomatic) (before : Recoded c d) :
    Recoded (e.apply c) (e.apply d)
  | gate {c d : Circuit F} {g g' : Gate} {id id' : BlueprintId} {b : Blueprint}
    (special : c.blueprintAt id = .ok b) (solvable : b.isSolvable) (accepted : c.accepts g id)
    (decoded : b.gateOf (g.words b) = .ok g') (generic : d.blueprintAt id' = .ok .genericGate)
    (before : Recoded c d) : Recoded ((Edit.gate g id).apply c) ((Edit.gate g' id').apply d)

theorem Recoded.edits (h : Recoded c d) {l : List (Edit F)} (automatic : ∀ e ∈ l, e.isAutomatic) :
    Recoded (l.foldl Edit.apply c) (l.foldl Edit.apply d) := by
  induction l generalizing c d with
  | nil => exact h
  | cons e l ih =>
    have first := Recoded.edit e (automatic e List.mem_cons_self) h
    exact ih first fun e' he' => automatic e' (List.mem_cons_of_mem e he')

theorem Recoded.built (h : Recoded c d) : c.Built ∧ d.Built := by
  induction h with
  | empty => exact ⟨.empty .sparse, .empty .sparse⟩
  | edit e automatic _ ih => exact ⟨.edit e automatic ih.1, .edit e automatic ih.2⟩
  | gate _ _ _ _ _ _ ih => exact ⟨.edit _ rfl ih.1, .edit _ rfl ih.2⟩

theorem Recoded.kind (h : Recoded c d) : c.kind = .sparse := by
  induction h with
  | empty => rfl
  | edit e _ _ ih => rw [(Extends.of_outcome (e.apply_outcome _)).kind, ih]
  | gate _ _ _ _ _ _ ih => rw [(Extends.of_outcome (Edit.apply_outcome _ _)).kind, ih]

/-- Circuits that are built with other layouts are alike. Places in the buffer are words of 64 bits,
    so the buffers must not be longer. -/
theorem Recoded.alike (h : Recoded c d) (small : c.callData.length < 2 ^ 64)
    (small' : d.callData.length < 2 ^ 64) : Alike c d := by
  induction h with
  | empty => exact ⟨⟨[], [], rfl⟩, rfl, [], ⟨rfl, by simp⟩, ⟨rfl, by simp⟩⟩
  | edit e automatic _ ih =>
    have before := Nat.lt_of_le_of_lt (length_callData_le e _) small
    have before' := Nat.lt_of_le_of_lt (length_callData_le e _) small'
    exact (ih before before').edit automatic small small'
  | gate special _ accepted decoded generic _ ih =>
    have before := Nat.lt_of_le_of_lt (length_callData_le _ _) small
    have before' := Nat.lt_of_le_of_lt (length_callData_le _ _) small'
    exact (ih before before').recode special accepted decoded generic small small'

end Circuit

end CircuitWitness
