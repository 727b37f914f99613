import CircuitWitness.Circuit.Query

/-!
# Decoded instructions

An instruction is decoded from its blueprint and its range of words.

Results:
* `Decoded.read`: an operation is what the blueprint reads from the words.
* `operationOf_of_reads`: what the blueprint reads from the words is the operation.
-/

namespace CircuitWitness

/-- The kind of the instructions that stand for an operation. -/
def Operation.kind : Operation → InstructionKind
  | .r1c _ => .r1c
  | .gate _ => .gate
  | .hint _ => .hint

/-- An operation is of the kind that a blueprint stands for, and is read from the words. -/
def Blueprint.Reads (b : Blueprint) (words : CallData) : Operation → Prop
  | .r1c r => b.kind = .r1c ∧ b.r1cOf words = .ok r
  | .gate g => b.kind = .gate ∧ b.gateOf words = .ok g
  | .hint call => b.kind = .hint ∧ b.hintOf words = .ok call

theorem Blueprint.Reads.kind {b : Blueprint} {words : CallData} {op : Operation}
    (h : b.Reads words op) : b.kind = op.kind := by
  cases op <;> exact h.1

namespace Circuit

variable {F : PrimeField}

/-- An instruction decoded to its operation, with its blueprint and its words. -/
structure Decoded (c : Circuit F) (i : Instruction) (b : Blueprint) (words : CallData)
    (op : Operation) : Prop where
  blueprint : c.blueprintAt i.blueprint = .ok b
  words : c.callDataOf i = .ok words
  operation : c.operationOf i = .ok op

theorem Decoded.of_operationOf {c : Circuit F} {i : Instruction} {op : Operation}
    (h : c.operationOf i = .ok op) : ∃ b words, c.Decoded i b words op := by
  have h' := h
  simp only [operationOf] at h'
  cases hb : c.blueprintAt i.blueprint with
  | error e =>
    rw [hb] at h'
    cases h'
  | ok b =>
    cases hw : c.callDataOf i with
    | error e =>
      rw [hb, hw] at h'
      cases h'
    | ok words => exact ⟨b, words, hb, hw, h⟩

/-- An operation is what its blueprint reads from its words. -/
theorem Decoded.read {c : Circuit F} {i : Instruction} {b : Blueprint} {words : CallData}
    {op : Operation} (h : c.Decoded i b words op) : b.Reads words op := by
  unfold Blueprint.Reads
  have h' := h.operation
  simp only [operationOf, h.blueprint, h.words, bind, Except.bind] at h'
  cases kind : b.kind with
  | r1c =>
    cases read : b.r1cOf words with
    | error e =>
      simp only [kind, read] at h'
      cases h'
    | ok r =>
      simp only [kind, read] at h'
      obtain rfl := Except.ok.inj h'
      exact ⟨rfl, rfl⟩
  | gate =>
    cases read : b.gateOf words with
    | error e =>
      simp only [kind, read] at h'
      cases h'
    | ok g =>
      simp only [kind, read] at h'
      obtain rfl := Except.ok.inj h'
      exact ⟨rfl, rfl⟩
  | hint =>
    cases read : b.hintOf words with
    | error e =>
      simp only [kind, read] at h'
      cases h'
    | ok call =>
      simp only [kind, read] at h'
      obtain rfl := Except.ok.inj h'
      exact ⟨rfl, rfl⟩

/-- What a blueprint reads from the words of an instruction is its operation. -/
theorem operationOf_of_reads {c : Circuit F} {i : Instruction} {b : Blueprint} {words : CallData}
    {op : Operation} (found : c.blueprintAt i.blueprint = .ok b)
    (hw : c.callDataOf i = .ok words) (h : b.Reads words op) : c.operationOf i = .ok op := by
  simp only [operationOf, found, hw, bind, Except.bind]
  cases op with
  | r1c r =>
    obtain ⟨kind, read⟩ := h
    rw [kind, read]
    rfl
  | gate g =>
    obtain ⟨kind, read⟩ := h
    rw [kind, read]
    rfl
  | hint call =>
    obtain ⟨kind, read⟩ := h
    rw [kind, read]
    rfl

end Circuit

end CircuitWitness
