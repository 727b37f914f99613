import CircuitWitness.Proofs.Circuit.Operations

/-!
# Added instructions

The edits that add an instruction differ in what they check and how they pack it. What becomes of
the circuit is the same for all of them: it has the words of the operation at the end of its
buffer, the instruction that leads to them, and the wires that the operation is the first to touch
are noted for its level.

Results:
* `outcome_cases`: an edit lets tables grow, adds an instruction or sets the levels.
* `Addition.operationOf_last`: an instruction that was added says what was added.
* `Extends.of_outcome`: instructions keep their place and their meaning.
-/

namespace CircuitWitness.Circuit

variable {F : PrimeField} {c c' : Circuit F}

/-! ## Checks -/

theorem mem_fresh {s : Levels} {inputCount : ℕ} {wires : List WireId} {x : WireId} :
    x ∈ s.fresh inputCount wires ↔ x ∈ wires ∧ inputCount ≤ x.toNat ∧ s.level? x = none := by
  simp [Levels.fresh, Levels.isDefined]

theorem checkOutputs_ok {earlier l : List WireId} (h : c.checkOutputs earlier l = .ok ()) :
    ∀ x ∈ l, x.toNat < c.wireCount ∧ c.inputCount ≤ x.toNat ∧ c.levels.level? x = none := by
  induction l generalizing earlier with
  | nil => simp
  | cons x l ih =>
    obtain ⟨_, range, h⟩ := except_bind_ok.1 h
    dsimp only at h
    split at h
    · cases h
    · split at h
      · cases h
      · next fresh =>
        rw [Bool.not_eq_true, Bool.or_eq_false_iff, decide_eq_false_iff_not, Levels.isDefined,
          Option.isSome_eq_false_iff, Option.isNone_iff_eq_none] at fresh
        rintro y (_ | ⟨_, hy⟩)
        · exact ⟨checkWire_ok.1 range, by omega, fresh.2⟩
        · exact ih h y hy

/-- Outputs that are accepted are listed once. -/
theorem checkOutputs_nodup {earlier l : List WireId} (h : c.checkOutputs earlier l = .ok ()) :
    l.Nodup ∧ ∀ x ∈ l, x ∉ earlier := by
  induction l generalizing earlier with
  | nil => simp
  | cons x l ih =>
    obtain ⟨_, range, h⟩ := except_bind_ok.1 h
    dsimp only at h
    split at h
    · cases h
    · next fresh =>
      split at h
      · cases h
      · obtain ⟨nodup, apart⟩ := ih h
        refine ⟨List.nodup_cons.2 ⟨fun mem => apart x mem (by simp), nodup⟩, ?_⟩
        rintro y (_ | ⟨_, hy⟩)
        · exact fresh
        · exact fun mem => apart y hy (List.mem_append_left _ mem)

/-! ## Additions -/

/-- An operation that may be added to a circuit: the words that its blueprint makes of it, and the
    wires that it is the first to touch. -/
structure Addition (c : Circuit F) (op : Operation) (noted : List WireId) (id : BlueprintId)
    (b : Blueprint) (words : CallData) : Prop where
  blueprint : c.blueprintAt id = .ok b
  allowed : c.kind.allows b.kind
  length : b.callDataLength words = .ok words.length
  reads : b.Reads words op
  inRange : c.InRange op
  noted : ∀ x, x ∈ noted ↔ x ∈ op.defines ∧ c.inputCount ≤ x.toNat ∧ c.levels.level? x = none
  outputs : ∀ call, op = .hint call → ∀ x ∈ call.outputs,
    c.inputCount ≤ x.toNat ∧ c.levels.level? x = none
  once : ∀ call, op = .hint call → call.outputs.Nodup

/-- The circuit after an addition. -/
def added (c : Circuit F) (op : Operation) (noted : List WireId) (id : BlueprintId) (b : Blueprint)
    (words : CallData) (names : OrderedMap HintId String) : Circuit F :=
  { c.appended id b words with
    hintNames := names
    levels := c.levels.commit c.nextIndex (c.levels.above c.inputCount op.reads) noted }

variable {op : Operation} {noted : List WireId} {id : BlueprintId} {b : Blueprint}
  {words : CallData}

theorem Addition.of_r1c {r : R1C} (found : c.blueprintFor id .r1c = .ok b)
    (inRange : r.terms.forM c.checkTerm = .ok ()) (small : r.wordCount < wordRange) :
    c.Addition (.r1c r) (c.levels.fresh c.inputCount (r.terms.map Term.wire)) id b r.words := by
  obtain ⟨known, kind, allowed⟩ := blueprintFor_ok.1 found
  exact {
    blueprint := known
    allowed := allowed
    length := Blueprint.callDataLength_r1c kind small
    reads := ⟨kind, Blueprint.r1cOf_words kind small⟩
    inRange := checkTerms_ok.1 inRange
    noted := fun x => mem_fresh
    outputs := by rintro _ ⟨⟩
    once := by rintro _ ⟨⟩ }

theorem Addition.of_gate {g : Gate} (found : c.blueprintFor id .gate = .ok b)
    (wires : [g.xa, g.xb, g.xc].forM c.checkWire = .ok ())
    (coeffs : g.coeffs.forM c.checkCoeff = .ok ()) :
    c.Addition (.gate (b.recoded g)) (c.levels.fresh c.inputCount (b.recoded g).wires) id b
      (g.words b) := by
  obtain ⟨known, kind, allowed⟩ := blueprintFor_ok.1 found
  have inRange : c.InRange (.gate g) := by
    simp only [except_forM_ok, checkWire_ok, checkCoeff_ok] at wires coeffs
    exact ⟨wires, coeffs⟩
  exact {
    blueprint := known
    allowed := allowed
    length := Blueprint.callDataLength_gate kind
    reads := ⟨kind, Blueprint.gateOf_words kind⟩
    inRange := inRange_recoded inRange
    noted := fun x => mem_fresh
    outputs := by rintro _ ⟨⟩
    once := by rintro _ ⟨⟩ }

theorem Addition.of_hint {call : HintCall} (found : c.blueprintFor id .hint = .ok b)
    (inRange : call.terms.forM c.checkTerm = .ok ())
    (outputs : c.checkOutputs [] call.outputs = .ok ()) (small : call.wordCount < wordRange) :
    c.Addition (.hint call) call.outputs id b call.words := by
  obtain ⟨known, kind, allowed⟩ := blueprintFor_ok.1 found
  have fresh := checkOutputs_ok outputs
  exact {
    blueprint := known
    allowed := allowed
    length := Blueprint.callDataLength_hint kind small
    reads := ⟨kind, Blueprint.hintOf_words kind small⟩
    inRange := ⟨checkTerms_ok.1 inRange, fun x hx => (fresh x hx).1⟩
    noted := fun x => ⟨fun mem => ⟨mem, (fresh x mem).2⟩, And.left⟩
    outputs := fun call' eq x hx => (fresh x (Operation.hint.inj eq ▸ hx)).2
    once := fun call' eq => Operation.hint.inj eq ▸ (checkOutputs_nodup outputs).1 }

/-- An edit lets tables grow, sets the levels or adds an instruction. -/
theorem outcome_cases {e : Edit F} (h : Edit.Outcome c e c') :
    Grown c c' ∨ (∃ schedule levels, e = .levels schedule ∧ c.replay schedule = .ok levels ∧
      c' = { c with levels }) ∨
    ∃ op noted id b words names, c.Addition op noted id b words ∧
      c' = c.added op noted id b words names := by
  cases h with
  | grown grown => exact .inl grown
  | levels replayed => exact .inr (.inl ⟨_, _, rfl, replayed, rfl⟩)
  | r1c found inRange small =>
    exact .inr (.inr ⟨_, _, _, _, _, c.hintNames, .of_r1c found inRange small, rfl⟩)
  | gate found wires coeffs fits =>
    exact .inr (.inr ⟨_, _, _, _, _, c.hintNames, .of_gate found wires coeffs, rfl⟩)
  | hint found inRange outputs small =>
    next call name id b =>
    exact .inr (.inr ⟨_, _, _, _, _, c.hintNames.insert (hintId name) name,
      .of_hint found inRange outputs small, rfl⟩)

/-! ## Instructions that pass their checks -/

/-- A rank-one constraint is added if it passes its checks. -/
theorem apply_r1c {r : R1C} (found : c.blueprintFor id .r1c = .ok b)
    (inRange : r.terms.forM c.checkTerm = .ok ()) (small : r.wordCount < wordRange) :
    (Edit.r1c r id).apply c = c.added (.r1c r)
      (c.levels.fresh c.inputCount (r.terms.map Term.wire)) id b r.words c.hintNames := by
  obtain ⟨-, kind, -⟩ := blueprintFor_ok.1 found
  have packed : (b.compressR1C r).run c.callData = .ok () (c.callData ++ r.words) :=
    Blueprint.compressR1C_ok.2 ⟨kind, small, rfl⟩
  simp only [Edit.apply, addR1C, EStateM.run_bind, run_ask, EStateM.run_get, run_pack, found,
    inRange, packed]
  rfl

/-- A gate is added, as its blueprint reads it back, if it passes its checks. -/
theorem apply_gate {g : Gate} (found : c.blueprintFor id .gate = .ok b)
    (wires : [g.xa, g.xb, g.xc].forM c.checkWire = .ok ())
    (coeffs : g.coeffs.forM c.checkCoeff = .ok ()) (fits : g.shapeFault? b = none) :
    (Edit.gate g id).apply c = c.added (.gate (b.recoded g))
      (c.levels.fresh c.inputCount (b.recoded g).wires) id b (g.words b) c.hintNames := by
  obtain ⟨-, kind, -⟩ := blueprintFor_ok.1 found
  have packed : (b.compressGate g).run c.callData = .ok () (c.callData ++ g.words b) :=
    Blueprint.compressGate_ok.2 ⟨kind, fits, rfl⟩
  simp only [Edit.apply, addGate, EStateM.run_bind, run_ask, EStateM.run_get, run_pack, found,
    wires, coeffs, packed, run_unpackGate, List.drop_left, Blueprint.gateOf_words kind]
  rfl

/-- A hint call is added if it passes its checks. -/
theorem apply_hint {call : HintCall} {name : String} (found : c.blueprintFor id .hint = .ok b)
    (named : c.checkHintName call.hint name = .ok ())
    (inRange : call.terms.forM c.checkTerm = .ok ())
    (outputs : c.checkOutputs [] call.outputs = .ok ()) (small : call.wordCount < wordRange) :
    (Edit.hint call name id).apply c = c.added (.hint call) call.outputs id b call.words
      (c.hintNames.insert (hintId name) name) := by
  obtain ⟨-, kind, -⟩ := blueprintFor_ok.1 found
  have packed : (b.compressHint call).run c.callData = .ok () (c.callData ++ call.words) :=
    Blueprint.compressHint_ok.2 ⟨kind, small, rfl⟩
  simp only [Edit.apply, addHint, EStateM.run_bind, run_ask, EStateM.run_get, run_pack, found,
    named, inRange, outputs, packed]
  rfl

/-! ## The instruction that was added last -/

/-- An instruction that was added says what was added. -/
theorem Addition.operationOf_last (h : c.Addition op noted id b words)
    (small : c.callData.length < 2 ^ 64) (constraint : UInt32) (names : OrderedMap HintId String) :
    (c.added op noted id b words names).operationOf
      ⟨id, constraint, UInt64.ofNat c.callData.length⟩ = .ok op :=
  operationOf_of_reads h.blueprint (callDataOf_appended h.blueprint rfl small h.length) h.reads

/-! ## What stays -/

/-- A circuit that has the instructions of another, perhaps followed by more, while the tables and
    the buffer may have grown. -/
structure Extends (c c' : Circuit F) : Prop where
  kind : c'.kind = c.kind
  instructions : c.instructions <+: c'.instructions
  blueprints : c.blueprints <+: c'.blueprints
  callData : c.callData <+: c'.callData
  coeffs : c.coeffs.size ≤ c'.coeffs.size
  wires : c.wireCount ≤ c'.wireCount

theorem Extends.of_grown (h : Grown c c') : Extends c c' :=
  ⟨h.kind, by rw [h.instructions], h.blueprints, by rw [h.callData], h.coeffs, h.wireCount⟩

theorem Extends.added (op : Operation) (noted : List WireId) (id : BlueprintId) (b : Blueprint)
    (words : CallData) (names : OrderedMap HintId String) :
    Extends c (c.added op noted id b words names) :=
  ⟨rfl, List.prefix_append _ _, List.prefix_refl _, List.prefix_append _ _, Nat.le_refl _,
    Nat.le_refl _⟩

/-- Instructions keep their place and what they refer to, whatever the edit. -/
theorem Extends.of_outcome {e : Edit F} (h : Edit.Outcome c e c') : Extends c c' := by
  obtain grown | ⟨schedule, levels, -, -, rfl⟩ | ⟨op, noted, id, b, words, names, -, rfl⟩ :=
    outcome_cases h
  · exact .of_grown grown
  · exact ⟨rfl, List.prefix_refl _, List.prefix_refl _, List.prefix_refl _, Nat.le_refl _,
      Nat.le_refl _⟩
  · exact .added op noted id b words names

theorem length_callData_le (e : Edit F) (c : Circuit F) :
    c.callData.length ≤ (e.apply c).callData.length :=
  (Extends.of_outcome (e.apply_outcome c)).callData.length_le

theorem Extends.operationAt {p : ℕ} (h : Extends c c') (opAt : c.operationAt p = some op) :
    c'.operationAt p = some op := by
  obtain ⟨i, found, decoded⟩ := operationAt_eq_some.1 opAt
  obtain ⟨b, words, parts⟩ := Decoded.of_operationOf decoded
  obtain ⟨bound, -⟩ := List.getElem?_eq_some_iff.1 found
  obtain ⟨more, same⟩ := h.instructions
  refine operationAt_eq_some.2 ⟨i, ?_, (parts.of_prefix h.blueprints h.callData).operation⟩
  rw [← same, List.getElem?_append_left bound, found]

end CircuitWitness.Circuit
