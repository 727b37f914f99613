import CircuitWitness.Circuit.Codec
import CircuitWitness.Proofs.Blueprint.Encoding
import CircuitWitness.Proofs.Constraint.Coefficients
import CircuitWitness.Proofs.Log.Symbols

/-!
# Editing a circuit

An edit is one operation on a circuit, with its arguments. Applying it gives the circuit after the
operation, whether it succeeded or failed. An operation that fails leaves the circuit as it was.

Results:
* `addR1C_run`, `addGate_run`, `addHint_run`: either nothing is left of a refused instruction, or
  the circuit has one instruction more.
* `Edit.apply_effect`: an edit has the effect of its operation, or is refused.
* `Edit.apply_outcome`: as far as instructions go, an edit lets tables grow, adds one instruction or
  sets the levels.
-/

namespace CircuitWitness

namespace Circuit

variable {F : PrimeField} {c c' : Circuit F}

/-! ## Questions and buffers -/

theorem run_ask {α : Type} (question : Circuit F → Except Error α) (c : Circuit F) :
    (ask question).run c =
      match question c with
      | .ok x => .ok x c
      | .error e => .error e c := rfl

theorem run_pack (write : Blueprint.Writer Unit) (c : Circuit F) :
    (pack write).run c =
      match write.run c.callData with
      | .ok _ words => .ok () { c with callData := words }
      | .error e words =>
        .error (.blueprint e) { c with callData := words.take c.callData.length } := rfl

theorem run_unpackGate (b : Blueprint) (start : Nat) (c : Circuit F) :
    (unpackGate b start).run c =
      match b.gateOf (c.callData.drop start) with
      | .ok g => .ok g c
      | .error e => .error (.blueprint e) { c with callData := c.callData.take start } := rfl

theorem take_of_keeps {write : Blueprint.Writer Unit} (keeps : Blueprint.Keeps write)
    {buffer words : CallData} {e : Blueprint.Error} (failed : write.run buffer = .error e words) :
    words.take buffer.length = buffer := by
  obtain ⟨tail, rfl⟩ := keeps.error failed
  exact List.take_left

/-! ## Instructions -/

/-- The circuit with one instruction more, whose words are the given ones. -/
def appended (c : Circuit F) (id : BlueprintId) (b : Blueprint) (words : CallData) : Circuit F :=
  { c with
    callData := c.callData ++ words
    instructions := c.instructions ++
      [⟨id, UInt32.ofNat c.constraintCount, UInt64.ofNat c.callData.length⟩]
    constraintCount := c.constraintCount + b.constraintCount }

/-- The number of the next instruction. -/
def nextIndex (c : Circuit F) : UInt32 := UInt32.ofNat c.instructions.length

/-- The number that an added constraint is given. -/
def newNumber (c : Circuit F) (b : Blueprint) : UInt32 :=
  UInt32.ofNat (c.constraintCount + b.constraintCount) - 1

theorem addR1C_run (r : R1C) (id : BlueprintId) (c : Circuit F) :
    (∃ e, (addR1C r id).run c = .error e c) ∨
    ∃ b, c.blueprintFor id .r1c = .ok b ∧ r.terms.forM c.checkTerm = .ok () ∧
      r.wordCount < wordRange ∧ (addR1C r id).run c = .ok (c.newNumber b)
        (levelConstraint c.nextIndex (r.terms.map Term.wire) (c.appended id b r.words)) := by
  cases found : c.blueprintFor id .r1c with
  | error e => exact .inl ⟨e, by simp only [addR1C, EStateM.run_bind, run_ask, found]⟩
  | ok b =>
    cases inRange : r.terms.forM c.checkTerm with
    | error e => exact .inl ⟨e, by simp only [addR1C, EStateM.run_bind, run_ask, found, inRange]⟩
    | ok =>
      cases packed : (b.compressR1C r).run c.callData with
      | error e words =>
        refine .inl ⟨.blueprint e, ?_⟩
        have same := take_of_keeps (Blueprint.compressR1C_keeps b r) packed
        simp only [addR1C, EStateM.run_bind, run_ask, EStateM.run_get, run_pack, found, inRange,
          packed, same]
      | ok _ words =>
        obtain ⟨-, small, rfl⟩ := Blueprint.compressR1C_ok.1 packed
        refine .inr ⟨b, rfl, rfl, small, ?_⟩
        simp only [addR1C, EStateM.run_bind, run_ask, EStateM.run_get, run_pack, found, inRange,
          packed]
        rfl

theorem addGate_run (g : Gate) (id : BlueprintId) (c : Circuit F) :
    (∃ e, (addGate g id).run c = .error e c) ∨
    ∃ b, c.blueprintFor id .gate = .ok b ∧ [g.xa, g.xb, g.xc].forM c.checkWire = .ok () ∧
      g.coeffs.forM c.checkCoeff = .ok () ∧ g.shapeFault? b = none ∧
      (addGate g id).run c = .ok (c.newNumber b)
        (levelConstraint c.nextIndex (b.recoded g).wires (c.appended id b (g.words b))) := by
  cases found : c.blueprintFor id .gate with
  | error e => exact .inl ⟨e, by simp only [addGate, EStateM.run_bind, run_ask, found]⟩
  | ok b =>
    cases wires : [g.xa, g.xb, g.xc].forM c.checkWire with
    | error e => exact .inl ⟨e, by simp only [addGate, EStateM.run_bind, run_ask, found, wires]⟩
    | ok =>
      cases coeffs : g.coeffs.forM c.checkCoeff with
      | error e =>
        exact .inl ⟨e, by simp only [addGate, EStateM.run_bind, run_ask, found, wires, coeffs]⟩
      | ok =>
        cases packed : (b.compressGate g).run c.callData with
        | error e words =>
          refine .inl ⟨.blueprint e, ?_⟩
          have same := take_of_keeps (Blueprint.compressGate_keeps b g) packed
          simp only [addGate, EStateM.run_bind, run_ask, EStateM.run_get, run_pack, found, wires,
            coeffs, packed, same]
        | ok _ words =>
          obtain ⟨kind, fits, rfl⟩ := Blueprint.compressGate_ok.1 packed
          refine .inr ⟨b, rfl, rfl, rfl, fits, ?_⟩
          simp only [addGate, EStateM.run_bind, run_ask, EStateM.run_get, run_pack, found, wires,
            coeffs, packed, run_unpackGate, List.drop_left, Blueprint.gateOf_words kind]
          rfl

/-- The circuit after a hint call was placed. -/
def withHint (c : Circuit F) (h : HintCall) (name : String) (id : BlueprintId) (b : Blueprint) :
    Circuit F :=
  { c.appended id b h.words with
    hintNames := c.hintNames.insert (hintId name) name
    levels := c.levels.addHint c.inputCount c.nextIndex (h.terms.map Term.wire) h.outputs }

theorem addHint_run (h : HintCall) (name : String) (id : BlueprintId) (c : Circuit F) :
    (∃ e, (addHint h name id).run c = .error e c) ∨
    ∃ b, c.blueprintFor id .hint = .ok b ∧ c.checkHintName h.hint name = .ok () ∧
      h.terms.forM c.checkTerm = .ok () ∧ c.checkOutputs [] h.outputs = .ok () ∧
      h.wordCount < wordRange ∧
      (addHint h name id).run c = .ok () (c.withHint h name id b) := by
  cases found : c.blueprintFor id .hint with
  | error e => exact .inl ⟨e, by simp only [addHint, EStateM.run_bind, run_ask, found]⟩
  | ok b =>
    cases named : c.checkHintName h.hint name with
    | error e => exact .inl ⟨e, by simp only [addHint, EStateM.run_bind, run_ask, found, named]⟩
    | ok =>
      cases terms : h.terms.forM c.checkTerm with
      | error e =>
        exact .inl ⟨e, by simp only [addHint, EStateM.run_bind, run_ask, found, named, terms]⟩
      | ok =>
        cases outputs : c.checkOutputs [] h.outputs with
        | error e =>
          exact .inl ⟨e, by
            simp only [addHint, EStateM.run_bind, run_ask, found, named, terms, outputs]⟩
        | ok =>
          cases packed : (b.compressHint h).run c.callData with
          | error e words =>
            refine .inl ⟨.blueprint e, ?_⟩
            have same := take_of_keeps (Blueprint.compressHint_keeps b h) packed
            simp only [addHint, EStateM.run_bind, run_ask, EStateM.run_get, run_pack, found, named,
              terms, outputs, packed, same]
          | ok _ words =>
            obtain ⟨-, small, rfl⟩ := Blueprint.compressHint_ok.1 packed
            refine .inr ⟨b, rfl, rfl, rfl, rfl, small, ?_⟩
            simp only [addHint, EStateM.run_bind, run_ask, EStateM.run_get, run_pack, found, named,
              terms, outputs, packed]
            rfl

/-! ## Other operations -/

theorem addPublic_run (name : String) (c : Circuit F) :
    (∃ e, (addPublic name).run c = .error e c) ∨
    c.internalCount = 0 ∧ (addPublic name).run c = .ok (UInt32.ofNat c.publicNames.length)
      { c with publicNames := c.publicNames ++ [name] } := by
  by_cases late : c.secretNames ≠ [] ∨ c.internalCount ≠ 0
  · refine .inl ⟨.variableOrder .publicTooLate, ?_⟩
    simp only [addPublic, EStateM.run_bind, EStateM.run_get, late]
    rfl
  · refine .inr ⟨Decidable.not_not.1 fun internal => late (.inr internal), ?_⟩
    simp only [addPublic, EStateM.run_bind, EStateM.run_get, late]
    rfl

theorem addSecret_run (name : String) (c : Circuit F) :
    (∃ e, (addSecret name).run c = .error e c) ∨
    c.internalCount = 0 ∧ (addSecret name).run c = .ok (UInt32.ofNat c.inputCount)
      { c with secretNames := c.secretNames ++ [name] } := by
  by_cases late : c.internalCount ≠ 0
  · refine .inl ⟨.variableOrder .secretTooLate, ?_⟩
    simp only [addSecret, EStateM.run_bind, EStateM.run_get]
    rw [if_pos late]
    rfl
  · refine .inr ⟨Decidable.not_not.1 late, ?_⟩
    simp only [addSecret, EStateM.run_bind, EStateM.run_get, late]
    rfl

theorem describe_run (constraint : UInt32) (entry : LogEntry) (c : Circuit F) :
    (∃ e, (describe constraint entry).run c = .error e c) ∨
    constraint.toNat < c.constraintCount ∧ (describe constraint entry).run c = .ok ()
      { c with
        descriptions := c.descriptions ++ [entry]
        descriptionOf :=
          c.descriptionOf.insert constraint (UInt32.ofNat c.descriptions.length) } := by
  by_cases unknown : c.constraintCount ≤ constraint.toNat
  · refine .inl ⟨.constraintOutOfRange constraint c.constraintCount, ?_⟩
    simp only [describe, EStateM.run_bind, EStateM.run_get, unknown]
    rfl
  · refine .inr ⟨Nat.not_le.1 unknown, ?_⟩
    simp only [describe, EStateM.run_bind, EStateM.run_get, unknown]
    rfl

theorem addLog_run (entry : LogEntry) (c : Circuit F) :
    (∃ e, (addLog entry).run c = .error e c) ∨
    (addLog entry).run c = .ok () { c with logs := c.logs ++ [entry] } := by
  cases inRange : entry.exprs.flatten.forM c.checkTerm with
  | error e => exact .inl ⟨e, by simp only [addLog, EStateM.run_bind, run_ask, inRange]⟩
  | ok =>
    refine .inr ?_
    simp only [addLog, EStateM.run_bind, run_ask, inRange]
    rfl

theorem setLevels_run (schedule : List (List UInt32)) (c : Circuit F) :
    (∃ e, c.replay schedule = .error e ∧ (setLevels schedule).run c = .error e c) ∨
    ∃ levels, c.replay schedule = .ok levels ∧
      (setLevels schedule).run c = .ok () { c with levels } := by
  cases replayed : c.replay schedule with
  | error e => exact .inl ⟨e, rfl, by simp only [setLevels, EStateM.run_bind, run_ask, replayed]⟩
  | ok levels =>
    refine .inr ⟨levels, rfl, ?_⟩
    simp only [setLevels, EStateM.run_bind, run_ask, replayed]
    rfl

/-! ## Edits -/

/-- A circuit that has the instructions of another, while its tables may have grown. Inputs are
    added only as long as there are no internal wires. -/
structure Grown (c c' : Circuit F) : Prop where
  kind : c'.kind = c.kind
  instructions : c'.instructions = c.instructions
  callData : c'.callData = c.callData
  constraintCount : c'.constraintCount = c.constraintCount
  levels : c'.levels = c.levels
  coeffs : c.coeffs.size ≤ c'.coeffs.size
  blueprints : c.blueprints <+: c'.blueprints
  publicNames : c.publicNames <+: c'.publicNames
  inputs : c.inputCount ≤ c'.inputCount
  internals : c.internalCount ≤ c'.internalCount
  order : c.internalCount ≠ 0 → c'.inputCount = c.inputCount

theorem Grown.refl (c : Circuit F) : Grown c c :=
  ⟨rfl, rfl, rfl, rfl, rfl, Nat.le_refl _, List.prefix_refl _, List.prefix_refl _, Nat.le_refl _,
    Nat.le_refl _, fun _ => rfl⟩

theorem Grown.wireCount (h : Grown c c') : c.wireCount ≤ c'.wireCount :=
  Nat.add_le_add h.inputs h.internals

/-- Inputs are declared only as long as there are no other wires. -/
theorem Grown.inputCount_eq (h : Grown c c') {x : WireId} (noInput : c.inputCount ≤ x.toNat)
    (range : x.toNat < c.wireCount) : c'.inputCount = c.inputCount := by
  have internal : c.internalCount ≠ 0 := by
    rw [Circuit.wireCount] at range
    omega
  exact h.order internal

theorem size_add (t : CoeffTable F) (x : F.Elem) : t.size ≤ (t.add x).2.size :=
  (t.toList_prefix_add x).length_le

end Circuit

variable {F : PrimeField}

/-- An operation on a circuit, with its arguments (a call that changes a `System`). -/
inductive Edit (F : PrimeField) where
  | coeff (x : F.Elem)
  | blueprint (b : Blueprint)
  | location (function file : String) (line : UInt32)
  | publicInput (name : String)
  | secretInput (name : String)
  | internal
  | r1c (r : R1C) (id : BlueprintId)
  | gate (g : Gate) (id : BlueprintId)
  | hint (h : HintCall) (name : String) (id : BlueprintId)
  | describe (constraint : UInt32) (entry : LogEntry)
  | log (entry : LogEntry)
  | levels (schedule : List (List UInt32))

namespace Edit

/-- The circuit after an edit, whether the edit succeeds or fails. -/
def apply (c : Circuit F) : Edit F → Circuit F
  | .coeff x => (c.addCoeff x).2
  | .blueprint b => (c.addBlueprint b).2
  | .location function file line => (c.addLocation function file line).2
  | .publicInput name => stateAfter ((Circuit.addPublic name).run c)
  | .secretInput name => stateAfter ((Circuit.addSecret name).run c)
  | .internal => c.addInternal.2
  | .r1c r id => stateAfter ((Circuit.addR1C r id).run c)
  | .gate g id => stateAfter ((Circuit.addGate g id).run c)
  | .hint h name id => stateAfter ((Circuit.addHint h name id).run c)
  | .describe constraint entry => stateAfter ((Circuit.describe constraint entry).run c)
  | .log entry => stateAfter ((Circuit.addLog entry).run c)
  | .levels schedule => stateAfter ((Circuit.setLevels schedule).run c)

/-- Whether an edit leaves the levels to the circuit. -/
def isAutomatic : Edit F → Bool
  | .levels _ => false
  | _ => true

open Circuit

variable {c : Circuit F}

/-- What an edit makes of a circuit: nothing if it is refused, else what its operation does. -/
inductive Effect (c : Circuit F) : Edit F → Circuit F → Prop where
  | refused {e : Edit F} : Effect c e c
  | coeff {x : F.Elem} : Effect c (.coeff x) (c.addCoeff x).2
  | blueprint {b : Blueprint} : Effect c (.blueprint b) (c.addBlueprint b).2
  | location {function file : String} {line : UInt32} :
    Effect c (.location function file line) (c.addLocation function file line).2
  | publicInput {name : String} (early : c.internalCount = 0) :
    Effect c (.publicInput name) { c with publicNames := c.publicNames ++ [name] }
  | secretInput {name : String} (early : c.internalCount = 0) :
    Effect c (.secretInput name) { c with secretNames := c.secretNames ++ [name] }
  | internal : Effect c .internal c.addInternal.2
  | r1c {r : R1C} {id : BlueprintId} {b : Blueprint} (found : c.blueprintFor id .r1c = .ok b)
    (inRange : r.terms.forM c.checkTerm = .ok ()) (small : r.wordCount < wordRange) :
    Effect c (.r1c r id)
      (levelConstraint c.nextIndex (r.terms.map Term.wire) (c.appended id b r.words))
  | gate {g : Gate} {id : BlueprintId} {b : Blueprint} (found : c.blueprintFor id .gate = .ok b)
    (wires : [g.xa, g.xb, g.xc].forM c.checkWire = .ok ())
    (coeffs : g.coeffs.forM c.checkCoeff = .ok ()) (fits : g.shapeFault? b = none) :
    Effect c (.gate g id)
      (levelConstraint c.nextIndex (b.recoded g).wires (c.appended id b (g.words b)))
  | hint {h : HintCall} {name : String} {id : BlueprintId} {b : Blueprint}
    (found : c.blueprintFor id .hint = .ok b) (inRange : h.terms.forM c.checkTerm = .ok ())
    (outputs : c.checkOutputs [] h.outputs = .ok ()) (small : h.wordCount < wordRange) :
    Effect c (.hint h name id) (c.withHint h name id b)
  | describe {constraint : UInt32} {entry : LogEntry}
    (known : constraint.toNat < c.constraintCount) :
    Effect c (.describe constraint entry)
      { c with
        descriptions := c.descriptions ++ [entry]
        descriptionOf :=
          c.descriptionOf.insert constraint (UInt32.ofNat c.descriptions.length) }
  | log {entry : LogEntry} : Effect c (.log entry) { c with logs := c.logs ++ [entry] }
  | levels {schedule : List (List UInt32)} {levels : Levels}
    (replayed : c.replay schedule = .ok levels) :
    Effect c (.levels schedule) { c with levels }

theorem Effect.of_error {e : Edit F} {α : Type} {r : EStateM.Result Circuit.Error (Circuit F) α}
    {err : Circuit.Error} (refused : r = .error err c) : Effect c e (stateAfter r) := by
  rw [refused]
  exact .refused

/-- Each edit has its effect or is refused. -/
theorem apply_effect (c : Circuit F) (e : Edit F) : Effect c e (e.apply c) := by
  cases e with
  | coeff x => exact .coeff
  | blueprint b => exact .blueprint
  | location function file line => exact .location
  | internal => exact .internal
  | publicInput name =>
    obtain ⟨_, refused⟩ | ⟨early, added⟩ := addPublic_run name c
    · exact .of_error refused
    · rw [apply, added]
      exact .publicInput early
  | secretInput name =>
    obtain ⟨_, refused⟩ | ⟨early, added⟩ := addSecret_run name c
    · exact .of_error refused
    · rw [apply, added]
      exact .secretInput early
  | r1c r id =>
    obtain ⟨_, refused⟩ | ⟨b, found, inRange, small, added⟩ := addR1C_run r id c
    · exact .of_error refused
    · rw [apply, added]
      exact .r1c found inRange small
  | gate g id =>
    obtain ⟨_, refused⟩ | ⟨b, found, wires, coeffs, fits, added⟩ := addGate_run g id c
    · exact .of_error refused
    · rw [apply, added]
      exact .gate found wires coeffs fits
  | hint h name id =>
    obtain ⟨_, refused⟩ | ⟨b, found, -, inRange, outputs, small, added⟩ := addHint_run h name id c
    · exact .of_error refused
    · rw [apply, added]
      exact .hint found inRange outputs small
  | describe constraint entry =>
    obtain ⟨_, refused⟩ | ⟨known, added⟩ := describe_run constraint entry c
    · exact .of_error refused
    · rw [apply, added]
      exact .describe known
  | log entry =>
    obtain ⟨_, refused⟩ | added := addLog_run entry c
    · exact .of_error refused
    · rw [apply, added]
      exact .log
  | levels schedule =>
    obtain ⟨_, -, refused⟩ | ⟨levels, replayed, added⟩ := setLevels_run schedule c
    · exact .of_error refused
    · rw [apply, added]
      exact .levels replayed

/-- What an edit can make of a circuit: it lets tables grow, adds one instruction or sets the
    levels. -/
inductive Outcome (c : Circuit F) : Edit F → Circuit F → Prop where
  | grown {e : Edit F} {c' : Circuit F} (grown : Grown c c') : Outcome c e c'
  | r1c {r : R1C} {id : BlueprintId} {b : Blueprint} (found : c.blueprintFor id .r1c = .ok b)
    (inRange : r.terms.forM c.checkTerm = .ok ()) (small : r.wordCount < wordRange) :
    Outcome c (.r1c r id)
      (levelConstraint c.nextIndex (r.terms.map Term.wire) (c.appended id b r.words))
  | gate {g : Gate} {id : BlueprintId} {b : Blueprint} (found : c.blueprintFor id .gate = .ok b)
    (wires : [g.xa, g.xb, g.xc].forM c.checkWire = .ok ())
    (coeffs : g.coeffs.forM c.checkCoeff = .ok ()) (fits : g.shapeFault? b = none) :
    Outcome c (.gate g id)
      (levelConstraint c.nextIndex (b.recoded g).wires (c.appended id b (g.words b)))
  | hint {h : HintCall} {name : String} {id : BlueprintId} {b : Blueprint}
    (found : c.blueprintFor id .hint = .ok b) (inRange : h.terms.forM c.checkTerm = .ok ())
    (outputs : c.checkOutputs [] h.outputs = .ok ()) (small : h.wordCount < wordRange) :
    Outcome c (.hint h name id) (c.withHint h name id b)
  | levels {schedule : List (List UInt32)} {levels : Levels}
    (replayed : c.replay schedule = .ok levels) :
    Outcome c (.levels schedule) { c with levels }

theorem Outcome.of_effect {e : Edit F} {c' : Circuit F} (h : Effect c e c') : Outcome c e c' := by
  cases h with
  | refused => exact .grown (.refl c)
  | coeff => exact .grown { Grown.refl c with coeffs := size_add c.coeffs _ }
  | blueprint => exact .grown { Grown.refl c with blueprints := prefix_internIn c.blueprints _ }
  | location | describe | log => exact .grown { Grown.refl c with }
  | publicInput early =>
    exact .grown { Grown.refl c with
      publicNames := List.prefix_append _ _
      inputs := by simp [inputCount]
      order := fun internal => absurd early internal }
  | secretInput early =>
    exact .grown { Grown.refl c with
      inputs := by simp [inputCount]
      order := fun internal => absurd early internal }
  | internal => exact .grown { Grown.refl c with internals := Nat.le_succ _ }
  | r1c found inRange small => exact .r1c found inRange small
  | gate found wires coeffs fits => exact .gate found wires coeffs fits
  | hint found inRange outputs small => exact .hint found inRange outputs small
  | levels replayed => exact .levels replayed

theorem apply_outcome (c : Circuit F) (e : Edit F) : Outcome c e (e.apply c) :=
  .of_effect (apply_effect c e)

end Edit

end CircuitWitness
