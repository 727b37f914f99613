import CircuitWitness.Proofs.Circuit.Documents
import CircuitWitness.Proofs.Circuit.Leveling

/-!
# Edited circuits pass the checks of reading

Whatever edits made a circuit, it would be accepted if it were read: its instructions can be decoded
and refer to what exists, descriptions are of its constraints, and replaying the schedule notes
for each wire the level that is noted already. Inputs that are declared later do not matter to the
levels, since they are declared only as long as there are no internal wires.

Results:
* `Levels.commit_eq`: noting the wires that are fresh is what replaying does with all of them.
* `Grown.note`, `Extends.note`: replaying notes the same for an instruction when tables grow and
  when another one is added.
* `Checked.edited`: an edit keeps a circuit acceptable.
* `Reachable.checked`: every circuit that can come about is acceptable.
-/

namespace CircuitWitness

variable {F : PrimeField}

/-! ## Notes -/

namespace Levels

theorem find?_define (inputCount level : ℕ) (m : OrderedMap WireId ℕ) (wires : List WireId)
    (x : WireId) : (define inputCount level m wires).find? x
      = if x ∈ wires ∧ inputCount ≤ x.toNat ∧ m.find? x = none then some level else m.find? x := by
  induction wires generalizing m with
  | nil => simp [define]
  | cons y wires ih =>
    rw [define, List.foldl_cons]
    change (define inputCount level _ wires).find? x = _
    rw [ih]
    by_cases fresh : inputCount ≤ y.toNat ∧ m.find? y = none
    · have taken : (inputCount ≤ y.toNat && !m.contains y) = true := by
        simp [OrderedMap.contains, fresh]
      rw [if_pos taken, OrderedMap.find?_insert]
      by_cases same : x = y
      · subst same
        simp [fresh]
      · simp [same]
    · have left : (inputCount ≤ y.toNat && !m.contains y) = false := by
        rw [OrderedMap.contains]
        by_contra taken
        simp only [Bool.not_eq_false, Bool.and_eq_true, decide_eq_true_eq, Bool.not_eq_true',
          Option.isSome_eq_false_iff, Option.isNone_iff_eq_none] at taken
        exact fresh taken
      rw [left]
      by_cases same : x = y
      · subst same
        simp [fresh]
      · simp [same]

/-- Inputs are not noted. -/
theorem define_of_inputs {inputCount level : ℕ} {m : OrderedMap WireId ℕ} {wires : List WireId}
    (inputs : ∀ x ∈ wires, x.toNat < inputCount) : define inputCount level m wires = m := by
  refine OrderedMap.ext_find? fun x => ?_
  rw [find?_define, if_neg]
  rintro ⟨mem, noInput, -⟩
  have := inputs x mem
  omega

/-- Noting the wires that are fresh is defining all of them. -/
theorem commit_eq {s : Levels} {inputCount : ℕ} {noted wires : List WireId}
    (h : ∀ x, x ∈ noted ↔ x ∈ wires ∧ inputCount ≤ x.toNat ∧ s.level? x = none) (index : UInt32)
    (level : ℕ) : s.commit index level noted
      = ⟨place index level s.schedule, define inputCount level s.definedAt wires⟩ := by
  have same : (s.commit index level noted).definedAt
      = define inputCount level s.definedAt wires := by
    refine OrderedMap.ext_find? fun x => ?_
    have committed := level?_commit s index level noted x
    rw [level?] at committed
    rw [committed, find?_define]
    simp only [h]
    rfl
  rw [← same]
  rfl

end Levels

namespace Circuit

variable {c c' : Circuit F}

/-! ## Instructions in a circuit that grows -/

theorem HasOperands.mono {op : Operation} (h : c.HasOperands op)
    (coeffs : c.coeffs.size ≤ c'.coeffs.size) (wires : c.wireCount ≤ c'.wireCount) :
    c'.HasOperands op := by
  have term {t : Term} (ht : c.HasTerm t) : c'.HasTerm t :=
    ⟨Nat.lt_of_lt_of_le ht.1 coeffs, Nat.lt_of_lt_of_le ht.2 wires⟩
  cases op with
  | r1c r => exact fun t ht => term (h t ht)
  | gate g =>
    exact ⟨fun x hx => Nat.lt_of_lt_of_le (h.wires x hx) wires,
      fun q hq => Nat.lt_of_lt_of_le (h.coeffs q hq) coeffs⟩
  | hint call =>
    exact ⟨fun t ht => term (h.1 t ht), fun x hx => Nat.lt_of_lt_of_le (h.2 x hx) wires⟩

theorem Extends.operationOf {i : Instruction} {op : Operation} (h : Extends c c')
    (operation : c.operationOf i = .ok op) : c'.operationOf i = .ok op := by
  obtain ⟨b, words, decoded⟩ := Decoded.of_operationOf operation
  exact (decoded.of_prefix h.blueprints h.callData).operation

theorem Extends.admissible {number : ℕ} {i : Instruction} (h : Extends c c')
    (old : c.Admissible number i) : c'.Admissible number i := by
  obtain ⟨⟨b, found, allowed⟩, number, op, operation, accepted⟩ := old
  refine ⟨⟨b, blueprintAt_of_prefix h.blueprints found, by rwa [h.kind]⟩, number, op,
    h.operationOf operation, ?_⟩
  rw [checkOperation_ok] at accepted ⊢
  exact accepted.mono h.coeffs h.wires

/-- Instructions have the same constraints before them. -/
theorem Extends.constraintsBefore (h : Extends c c')
    (known : ∀ i ∈ c.instructions, ∃ b, c.blueprintAt i.blueprint = .ok b) {p : ℕ}
    (hp : p ≤ c.instructions.length) : c'.constraintsBefore p = c.constraintsBefore p := by
  obtain ⟨more, same⟩ := h.instructions
  rw [Circuit.constraintsBefore, Circuit.constraintsBefore, ← same,
    List.take_append_of_le_length hp]
  refine List.countP_congr fun i hi => ?_
  obtain ⟨b, found⟩ := known i (List.mem_of_mem_take hi)
  have same := isConstraint_of_prefix h.blueprints found
  rw [same]

/-- Replaying notes the same when tables grow. -/
theorem Grown.note {number level : ℕ} {i : Instruction} (h : Grown c c')
    (admissible : c.Admissible number i) (m : OrderedMap WireId ℕ) :
    c'.note m (i, level) = c.note m (i, level) := by
  obtain ⟨op, operation, accepted⟩ := admissible.operation
  have defines := (checkOperation_ok.1 accepted).defines
  have same : Levels.define c'.inputCount level m op.defines
      = Levels.define c.inputCount level m op.defines := by
    by_cases internal : c.internalCount = 0
    · -- All wires are inputs, before and after.
      have count : c.wireCount = c.inputCount := by
        rw [Circuit.wireCount, internal, Nat.add_zero]
      rw [count] at defines
      rw [Levels.define_of_inputs defines,
        Levels.define_of_inputs fun x hx => Nat.lt_of_lt_of_le (defines x hx) h.inputs]
    · rw [h.order internal]
  simp only [Circuit.note, operation, (Extends.of_grown h).operationOf operation, bind,
    Except.bind, same]

/-- Replaying notes the same for the instructions before one that was added. -/
theorem Extends.note {number level : ℕ} {i : Instruction} (h : Extends c c')
    (inputs : c'.inputCount = c.inputCount) (admissible : c.Admissible number i)
    (m : OrderedMap WireId ℕ) : c'.note m (i, level) = c.note m (i, level) := by
  obtain ⟨op, operation, -⟩ := admissible.operation
  simp only [Circuit.note, operation, h.operationOf operation, bind, Except.bind, inputs]

theorem Checked.admissible_of_mem (h : c.Checked) {i : Instruction} (mem : i ∈ c.instructions) :
    ∃ number, c.Admissible number i := by
  obtain ⟨p, bound, rfl⟩ := List.getElem_of_mem mem
  exact ⟨_, h.admissible (List.getElem?_eq_getElem bound)⟩

/-! ## Levels of edited circuits -/

theorem Grown.replayed (grown : Grown c c') (h : c.Checked) :
    c'.replay c'.levels.schedule = .ok c'.levels := by
  obtain ⟨-, table, accepted, noted⟩ := replay_eq_ok.1 h.replayed
  refine replay_eq_ok.2 ⟨rfl, table, ?_, ?_⟩
  · rwa [grown.levels, grown.instructions]
  · rw [grown.levels, grown.instructions, ← noted]
    refine except_foldlM_congr (fun x mem m => ?_) _
    obtain ⟨number, admissible⟩ := h.admissible_of_mem (List.of_mem_zip mem).1
    exact grown.note admissible m

variable {op : Operation} {noted : List WireId} {id : BlueprintId} {b : Blueprint}
  {words : CallData}

theorem Addition.replayed (addition : c.Addition op noted id b words) (h : c.Checked)
    (room : c.instructions.length < wordRange) (buffer : c.callData.length < 2 ^ 64)
    (names : OrderedMap HintId String) :
    (c.added op noted id b words names).replay
        (c.added op noted id b words names).levels.schedule
      = .ok (c.added op noted id b words names).levels := by
  obtain ⟨-, table, accepted, replayed⟩ := replay_eq_ok.1 h.replayed
  have levels : (c.added op noted id b words names).levels
      = ⟨Levels.place c.nextIndex (c.levels.above c.inputCount op.reads) c.levels.schedule,
          Levels.define c.inputCount (c.levels.above c.inputCount op.reads) c.levels.definedAt
            op.defines⟩ := Levels.commit_eq addition.noted _ _
  have instructions : (c.added op noted id b words names).instructions = c.instructions
      ++ [⟨id, UInt32.ofNat c.constraintCount, UInt64.ofNat c.callData.length⟩] := rfl
  have last := addition.operationOf_last buffer (UInt32.ofNat c.constraintCount) names
  have old : (c.instructions.zip table).foldlM (c.added op noted id b words names).note .empty
      = .ok c.levels.definedAt := by
    rw [← replayed]
    refine except_foldlM_congr (fun x mem m => ?_) _
    obtain ⟨number, admissible⟩ := h.admissible_of_mem (List.of_mem_zip mem).1
    exact (Extends.added op noted id b words names).note rfl admissible m
  refine replay_eq_ok.2 ⟨rfl, table ++ [c.levels.above c.inputCount op.reads], ?_, ?_⟩
  · rw [levels, instructions, List.length_append, List.length_singleton]
    exact accepted.place room _
  · rw [levels, instructions, List.zip_append accepted.length.symm, List.foldlM_append, old]
    simp only [List.zip_cons_cons, List.zip_nil_right, List.foldlM_cons, List.foldlM_nil, note,
      last, bind, Except.bind]
    rfl

/-! ## Numbers of edited circuits -/

theorem Addition.admissible (addition : c.Addition op noted id b words) (h : WellFormed c)
    (room : c.instructions.length < wordRange) (buffer : c.callData.length < 2 ^ 64)
    (names : OrderedMap HintId String) :
    (c.added op noted id b words names).Admissible c.constraintCount
      ⟨id, UInt32.ofNat c.constraintCount, UInt64.ofNat c.callData.length⟩ := by
  have count : c.constraintCount < wordRange := by
    have := List.countP_le_length (p := c.isConstraint) (l := c.instructions)
    rw [h.count]
    omega
  refine ⟨⟨b, addition.blueprint, addition.allowed⟩, toNat_word count, op,
    addition.operationOf_last buffer _ names, checkOperation_ok.2 ?_⟩
  exact addition.inRange.hasOperands.mono (Nat.le_refl _) (Nat.le_refl _)

/-- Instructions that were there before still pass the checks. -/
theorem Extends.admissible_at (ext : Extends c c') (h : c.Checked) {p : ℕ} {i : Instruction}
    (bound : p < c.instructions.length) (found : c'.instructions[p]? = some i) :
    c'.Admissible (c'.constraintsBefore p) i := by
  have old : c.instructions[p]? = some i := by
    obtain ⟨more, same⟩ := ext.instructions
    rwa [← same, List.getElem?_append_left bound] at found
  have known : ∀ i ∈ c.instructions, ∃ b, c.blueprintAt i.blueprint = .ok b := by
    intro i hi
    obtain ⟨b, found, -⟩ := h.wellFormed.blueprint i hi
    exact ⟨b, found⟩
  rw [ext.constraintsBefore known (Nat.le_of_lt bound)]
  exact ext.admissible (h.admissible old)

theorem length_instructions_added (op : Operation) (noted : List WireId) (id : BlueprintId)
    (b : Blueprint) (words : CallData) (names : OrderedMap HintId String) :
    (c.added op noted id b words names).instructions.length = c.instructions.length + 1 :=
  List.length_append

/-! ## Circuits that can come about -/

theorem constraintCount_le {e : Edit F} (outcome : Edit.Outcome c e c') :
    c.constraintCount ≤ c'.constraintCount := by
  obtain grown | ⟨schedule, levels, -, -, rfl⟩ | ⟨op, noted, id, b, words, names, -, rfl⟩ :=
    outcome_cases outcome
  · rw [grown.constraintCount]
  · exact Nat.le_refl _
  · exact Nat.le_add_right _ _

/-- All instructions of an edited circuit pass the checks. -/
theorem Checked.admissible_edited (h : c.Checked) {e : Edit F} (outcome : Edit.Outcome c e c')
    (room : c'.instructions.length ≤ wordRange) (buffer : c'.callData.length < 2 ^ 64) {p : ℕ}
    {i : Instruction} (found : c'.instructions[p]? = some i) :
    c'.Admissible (c'.constraintsBefore p) i := by
  have ext := Extends.of_outcome outcome
  by_cases bound : p < c.instructions.length
  · exact ext.admissible_at h bound found
  · have inside := (List.getElem?_eq_some_iff.1 found).1
    obtain grown | ⟨schedule, levels, -, -, rfl⟩ |
      ⟨op, noted, id, b, words, names, addition, rfl⟩ := outcome_cases outcome
    · rw [grown.instructions] at inside
      exact absurd inside bound
    · exact absurd inside bound
    · rw [length_instructions_added] at inside room
      obtain rfl : p = c.instructions.length := by omega
      obtain rfl : _ = i := Option.some.inj (List.getElem?_concat_length.symm.trans found)
      have before : (c.added op noted id b words names).constraintsBefore c.instructions.length
          = c.constraintCount := by
        rw [h.wellFormed.count, Circuit.constraintsBefore]
        exact congrArg (List.countP c.isConstraint) List.take_left
      rw [before]
      have := ext.callData.length_le
      exact addition.admissible h.wellFormed (by omega) (by omega) names

/-- The levels of an edited circuit are those of its schedule. -/
theorem Checked.replayed_edited (h : c.Checked) {e : Edit F} (outcome : Edit.Outcome c e c')
    (room : c'.instructions.length ≤ wordRange) (buffer : c'.callData.length < 2 ^ 64) :
    c'.replay c'.levels.schedule = .ok c'.levels := by
  have shorter := (Extends.of_outcome outcome).callData.length_le
  obtain grown | ⟨schedule, levels, -, replayed, rfl⟩ |
    ⟨op, noted, id, b, words, names, addition, rfl⟩ := outcome_cases outcome
  · exact grown.replayed h
  · obtain ⟨rfl, -⟩ := replay_ok replayed
    exact replayed
  · rw [length_instructions_added] at room
    exact addition.replayed h (by omega) (by omega) names

/-- An edit keeps a circuit acceptable, as long as instructions can be numbered by words. -/
theorem Checked.edited (h : c.Checked) (e : Edit F)
    (room : (e.apply c).instructions.length ≤ wordRange)
    (buffer : (e.apply c).callData.length < 2 ^ 64) : (e.apply c).Checked := by
  have outcome := e.apply_outcome c
  obtain ⟨one, -, described⟩ := validate_eq_ok.1 h.valid
  refine ⟨validate_eq_ok.2 ⟨oneName_edited outcome one, ?_, ?_⟩,
    h.replayed_edited outcome room buffer⟩
  · refine checkInstructions_eq_ok.2 ⟨?_, fun p i found => ?_⟩
    · rw [Nat.zero_add]
      exact (h.wellFormed.edited outcome).count
    · rw [Nat.zero_add]
      exact h.admissible_edited outcome room buffer found
  · exact Described.edited described (apply_documents c e) (constraintCount_le outcome)

theorem Checked.empty (kind : CircuitKind) : (empty F kind).Checked := by
  refine ⟨validate_eq_ok.2 ⟨?_, rfl, ?_⟩, rfl⟩
  · rintro rfl
    rfl
  · intro e mem
    exact absurd mem List.not_mem_nil

/-- Every circuit that can come about passes the checks of reading, as long as its instructions can
    be numbered by words. -/
theorem Reachable.checked (h : c.Reachable) (room : c.instructions.length ≤ wordRange)
    (buffer : c.callData.length < 2 ^ 64) : c.Checked := by
  induction h with
  | empty kind => exact .empty kind
  | read accepted => exact .of_read accepted
  | edit e _ ih =>
    next c _ =>
    have ext := Extends.of_outcome (e.apply_outcome c)
    have fewer := ext.instructions.length_le
    have shorter := ext.callData.length_le
    exact (ih (by omega) (by omega)).edited e room buffer

/-- Locations name functions, whatever was done to a circuit. -/
theorem Reachable.located (h : c.Reachable) : c.symbols.wellFormed := by
  induction h with
  | empty kind => rfl
  | read accepted => exact wellFormed_of_read accepted
  | edit e _ ih => exact wellFormed_edited ih (apply_documents _ e)

end Circuit

end CircuitWitness
