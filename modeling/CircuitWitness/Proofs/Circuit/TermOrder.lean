import CircuitWitness.Proofs.Circuit.Contents
import CircuitWitness.Proofs.Circuit.Recoding

/-!
# The order of terms

The terms of an expression may be written down in any order. Circuits that are built by the same
edits, but for the order of the terms within the expressions of rank-one constraints and within the
inputs of hints, accept and refuse the same edits. Their words stand at the same places, so they
have the same instructions, and they differ in the words alone. An instruction is placed above all
wires that it reads and defines all that are new, in whatever order they come. So the levels are the
same, too.

Results:
* `Levels.commit_perm`: where an instruction is placed does not hang on the order of its wires.
* `Reordered.edit`: an edit in another order keeps circuits equal but for the order of terms.
* `Reordered.edits`: so do any number of edits.
* `Reordered.instruction`: each instruction says the same in another order.
-/

namespace CircuitWitness

/-! ## Operations -/

/-- Constraints whose expressions have the same terms, in whatever order. -/
structure R1C.Permuted (r r' : R1C) : Prop where
  left : r.l.Perm r'.l
  right : r.r.Perm r'.r
  out : r.o.Perm r'.o

/-- Calls whose inputs have the same terms, each in whatever order. -/
structure HintCall.Permuted (h h' : HintCall) : Prop where
  hint : h'.hint = h.hint
  inputs : List.Forall₂ List.Perm h.inputs h'.inputs
  outputs : h'.outputs = h.outputs

/-- Operations of circuits of rank-one constraints that differ in the order of terms. -/
inductive Operation.Permuted : Operation → Operation → Prop where
  | r1c {r r' : R1C} (perm : r.Permuted r') : Permuted (.r1c r) (.r1c r')
  | hint {h h' : HintCall} (perm : h.Permuted h') : Permuted (.hint h) (.hint h')

/-- Edits that differ in the order of the terms of a constraint or of the inputs of a hint. -/
inductive Edit.Permuted {F : PrimeField} : Edit F → Edit F → Prop where
  | same (e : Edit F) : Permuted e e
  | r1c {r r' : R1C} (perm : r.Permuted r') (id : BlueprintId) : Permuted (.r1c r id) (.r1c r' id)
  | hint {h h' : HintCall} (perm : h.Permuted h') (name : String) (id : BlueprintId) :
    Permuted (.hint h name id) (.hint h' name id)

namespace R1C.Permuted

variable {r r' : R1C}

theorem terms (h : r.Permuted r') : r.terms.Perm r'.terms := (h.left.append h.right).append h.out

theorem wordCount (h : r.Permuted r') : r'.wordCount = r.wordCount := by
  rw [R1C.wordCount, R1C.wordCount, h.left.length_eq, h.right.length_eq, h.out.length_eq]

theorem length_words (h : r.Permuted r') : r'.words.length = r.words.length := by
  simp only [R1C.words, List.length_append, length_flatMap_words, h.terms.length_eq,
    List.length_cons]

end R1C.Permuted

namespace HintCall.Permuted

variable {h h' : HintCall}

theorem terms (p : h.Permuted h') : h.terms.Perm h'.terms := List.Perm.flatten_congr p.inputs

theorem wordCount (p : h.Permuted h') : h'.wordCount = h.wordCount := by
  have count {es es' : List LinearExpr} (perm : List.Forall₂ List.Perm es es') :
      es'.foldr (fun e n => 1 + 2 * e.length + n) 0
        = es.foldr (fun e n => 1 + 2 * e.length + n) 0 := by
    induction perm with
    | nil => rfl
    | cons perm _ ih => rw [List.foldr_cons, List.foldr_cons, ih, perm.length_eq]
  rw [HintCall.wordCount, HintCall.wordCount, count p.inputs, p.outputs]

end HintCall.Permuted

namespace Operation.Permuted

variable {op op' : Operation}

theorem refl (noGate : op.kind ≠ .gate) : op.Permuted op := by
  cases op with
  | r1c r => exact .r1c ⟨.refl _, .refl _, .refl _⟩
  | gate g => exact absurd rfl noGate
  | hint h => exact .hint ⟨rfl, List.forall₂_same.2 fun _ _ => .refl _, rfl⟩

theorem reads (h : op.Permuted op') : op.reads.Perm op'.reads := by
  cases h with
  | r1c perm => exact perm.terms.map Term.wire
  | hint perm => exact perm.terms.map Term.wire

end Operation.Permuted

/-! ## Levels -/

namespace Levels

variable {wires wires' : List WireId}

theorem above_perm (s : Levels) (inputCount : ℕ) (perm : wires.Perm wires') :
    s.above inputCount wires' = s.above inputCount wires := by
  have comm : RightCommutative fun (n l : ℕ) => max n (l + 1) := ⟨fun n l l' => by omega⟩
  exact (((perm.filter _).filterMap s.level?).foldl_eq 0).symm

theorem fresh_perm (s : Levels) (inputCount : ℕ) (perm : wires.Perm wires') :
    (s.fresh inputCount wires).Perm (s.fresh inputCount wires') := perm.filter _

/-- An instruction is placed, and noted for its wires, in whatever order these come. -/
theorem commit_perm (s : Levels) (index : UInt32) (level : ℕ) (perm : wires.Perm wires') :
    s.commit index level wires' = s.commit index level wires := by
  have noted :
      (s.commit index level wires').definedAt = (s.commit index level wires).definedAt := by
    refine OrderedMap.ext_find? fun x => ?_
    have left := level?_commit s index level wires' x
    have right := level?_commit s index level wires x
    simp only [perm.mem_iff] at right
    exact left.trans right.symm
  exact congrArg (Levels.mk _) noted

end Levels

namespace Circuit

variable {F : PrimeField} {c d : Circuit F}

/-! ## Circuits -/

/-- Circuits with the same instructions, which say the same but for the order of terms. -/
structure Reordered (c d : Circuit F) : Prop where
  code : ∃ ws, ws.length = c.callData.length ∧ d = c.withCode c.instructions ws
  operations : ∃ ops ops', c.HasOperations ops ∧ d.HasOperations ops' ∧
    List.Forall₂ Operation.Permuted ops ops'

theorem Reordered.empty (F : PrimeField) (kind : CircuitKind) :
    Reordered (.empty F kind) (.empty F kind) :=
  ⟨⟨[], rfl, rfl⟩, [], [], ⟨rfl, by simp⟩, ⟨rfl, by simp⟩, .nil⟩

theorem Reordered.levels_eq (h : Reordered c d) : d.levels = c.levels := by
  obtain ⟨ws, -, rfl⟩ := h.code
  rfl

theorem Reordered.instructions_eq (h : Reordered c d) : d.instructions = c.instructions := by
  obtain ⟨ws, -, rfl⟩ := h.code
  rfl

/-- Each instruction says the same, in another order. -/
theorem Reordered.instruction (h : Reordered c d) {p : ℕ} {i : Instruction}
    (found : c.instructions[p]? = some i) : ∃ op op', c.operationOf i = .ok op ∧
      d.operationOf i = .ok op' ∧ op.Permuted op' ∧ c.InRange op := by
  obtain ⟨ops, ops', hc, hd, perm⟩ := h.operations
  obtain ⟨op, listed, decoded⟩ := hc.getElem? found
  obtain ⟨op', listed', decoded'⟩ := hd.getElem? (h.instructions_eq ▸ found)
  refine ⟨op, op', decoded, decoded', ?_, hc.inRange op (List.mem_of_getElem? listed)⟩
  obtain ⟨bound, rfl⟩ := List.getElem?_eq_some_iff.1 listed
  obtain ⟨bound', rfl⟩ := List.getElem?_eq_some_iff.1 listed'
  exact perm.get bound bound'

/-- Tables that grow in the same way keep the order of terms the only difference. -/
theorem Reordered.grown {c' d' : Circuit F} (h : Reordered c d) (left : Grown c c')
    (right : Grown d d') (code : ∃ ws, ws.length = c'.callData.length ∧
      d' = c'.withCode c'.instructions ws) : Reordered c' d' := by
  obtain ⟨ops, ops', hc, hd, perm⟩ := h.operations
  exact ⟨code, ops, ops', hc.grown left, hd.grown right, perm⟩

/-- So does an operation that is added in another order. -/
theorem Reordered.added (h : Reordered c d) {op op' : Operation} {noted noted' : List WireId}
    {id : BlueprintId} {b : Blueprint} {words words' : CallData}
    (left : c.Addition op noted id b words) (right : d.Addition op' noted' id b words')
    (perm : op.Permuted op') (wires : noted.Perm noted') (length : words'.length = words.length)
    (small : c.callData.length < 2 ^ 64) (names : OrderedMap HintId String) :
    Reordered (c.added op noted id b words names) (d.added op' noted' id b words' names) := by
  obtain ⟨ops, ops', hc, hd, perms⟩ := h.operations
  obtain ⟨ws, size, rfl⟩ := h.code
  have small' : (c.withCode c.instructions ws).callData.length < 2 ^ 64 := size ▸ small
  refine ⟨⟨ws ++ words', ?_, ?_⟩, ops ++ [op], ops' ++ [op'], hc.added left small names,
    hd.added right small' names, List.rel_append perms (.cons perm .nil)⟩
  · simp only [Circuit.added, appended, List.length_append, size, length]
  · have levels : (c.levels.commit c.nextIndex (c.levels.above c.inputCount op'.reads) noted')
        = c.levels.commit c.nextIndex (c.levels.above c.inputCount op.reads) noted := by
      rw [Levels.above_perm _ _ perm.reads, Levels.commit_perm _ _ _ wires]
    simp only [Circuit.added, appended, Circuit.withCode, size, ← levels]
    rfl

/-- Terms are checked alike in whatever order. -/
theorem checkTerms_perm {l l' : List Term} (perm : l.Perm l') :
    l'.forM c.checkTerm = .ok () ↔ l.forM c.checkTerm = .ok () := by
  simp only [checkTerms_ok, perm.mem_iff]

/-- Circuits of rank-one constraints hold no gates. -/
theorem Addition.noGate {op : Operation} {noted : List WireId} {id : BlueprintId} {b : Blueprint}
    {words : CallData} (h : c.Addition op noted id b words) (kind : c.kind = .r1cs) :
    op.kind ≠ .gate := by
  intro gate
  have allowed := h.allowed
  rw [kind, h.reads.kind, gate] at allowed
  cases allowed

/-- The same edit keeps the order of terms the only difference. -/
theorem Reordered.same (h : Reordered c d) (kind : c.kind = .r1cs) {e : Edit F}
    (automatic : e.isAutomatic) (small : c.callData.length < 2 ^ 64) :
    Reordered (e.apply c) (e.apply d) := by
  obtain ⟨ws, size, rfl⟩ := h.code
  cases apply_withCode c automatic c.instructions ws with
  | grown grown same =>
    rw [same]
    refine h.grown grown (grown.withCode _ ws) ⟨ws, ?_, ?_⟩
    · rw [grown.callData, size]
    · rw [grown.instructions]
  | added addition left right =>
    rw [left, right]
    exact h.added addition (addition.withCode _ ws) (.refl (addition.noGate kind)) (.refl _) rfl
      small _

/-- A constraint may be added in another order. -/
theorem Reordered.r1c (h : Reordered c d) {r r' : R1C} (perm : r.Permuted r') (id : BlueprintId)
    (small : c.callData.length < 2 ^ 64) :
    Reordered ((Edit.r1c r id).apply c) ((Edit.r1c r' id).apply d) := by
  obtain ⟨ws, size, rfl⟩ := h.code
  have taken {b : Blueprint} (found : c.blueprintFor id .r1c = .ok b)
      (inRange : r.terms.forM c.checkTerm = .ok ()) (short : r.wordCount < wordRange) :
      Reordered ((Edit.r1c r id).apply c)
        ((Edit.r1c r' id).apply (c.withCode c.instructions ws)) := by
    have inRange' := (checkTerms_perm perm.terms).2 inRange
    have short' : r'.wordCount < wordRange := perm.wordCount ▸ short
    rw [apply_r1c found inRange short,
      apply_r1c (c := c.withCode c.instructions ws) found inRange' short']
    exact h.added (.of_r1c found inRange short)
      (.of_r1c (c := c.withCode c.instructions ws) found inRange' short') (.r1c perm)
      (Levels.fresh_perm _ _ (perm.terms.map Term.wire)) perm.length_words small _
  obtain ⟨_, refused⟩ | ⟨b, found, inRange, short, -⟩ := addR1C_run r id c
  · obtain ⟨_, refused'⟩ | ⟨b, found, inRange, short, -⟩ :=
      addR1C_run r' id (c.withCode c.instructions ws)
    · simp only [Edit.apply, refused, refused', stateAfter_error]
      exact h
    · exact taken found ((checkTerms_perm perm.terms).1 inRange) (perm.wordCount ▸ short)
  · exact taken found inRange short

/-- A hint may be added with the terms of its inputs in another order. -/
theorem Reordered.hint (h : Reordered c d) {call call' : HintCall} (perm : call.Permuted call')
    (name : String) (id : BlueprintId) (small : c.callData.length < 2 ^ 64) :
    Reordered ((Edit.hint call name id).apply c) ((Edit.hint call' name id).apply d) := by
  obtain ⟨ws, size, rfl⟩ := h.code
  have taken {b : Blueprint} (found : c.blueprintFor id .hint = .ok b)
      (named : c.checkHintName call.hint name = .ok ())
      (inRange : call.terms.forM c.checkTerm = .ok ())
      (outputs : c.checkOutputs [] call.outputs = .ok ()) (short : call.wordCount < wordRange) :
      Reordered ((Edit.hint call name id).apply c)
        ((Edit.hint call' name id).apply (c.withCode c.instructions ws)) := by
    have named' : (c.withCode c.instructions ws).checkHintName call'.hint name = .ok () :=
      perm.hint ▸ named
    have inRange' := (checkTerms_perm perm.terms).2 inRange
    have outputs' : (c.withCode c.instructions ws).checkOutputs [] call'.outputs = .ok () :=
      checkOutputs_withCode.trans (perm.outputs ▸ outputs)
    have short' : call'.wordCount < wordRange := perm.wordCount ▸ short
    have length : call'.words.length = call.words.length := by
      rw [HintCall.length_words, HintCall.length_words, perm.wordCount]
    rw [apply_hint found named inRange outputs short,
      apply_hint (c := c.withCode c.instructions ws) found named' inRange' outputs' short']
    exact h.added (.of_hint found inRange outputs short)
      (.of_hint (c := c.withCode c.instructions ws) found inRange' outputs' short') (.hint perm)
      (.of_eq perm.outputs.symm) length small _
  obtain ⟨_, refused⟩ | ⟨b, found, named, inRange, outputs, short, -⟩ := addHint_run call name id c
  · obtain ⟨_, refused'⟩ | ⟨b, found, named, inRange, outputs, short, -⟩ :=
      addHint_run call' name id (c.withCode c.instructions ws)
    · simp only [Edit.apply, refused, refused', stateAfter_error]
      exact h
    · exact taken found (perm.hint ▸ named) ((checkTerms_perm perm.terms).1 inRange)
        (checkOutputs_withCode.symm.trans (perm.outputs ▸ outputs)) (perm.wordCount ▸ short)
  · exact taken found named inRange outputs short

/-- An edit in another order keeps circuits equal but for the order of terms. -/
theorem Reordered.edit (h : Reordered c d) (kind : c.kind = .r1cs) {e e' : Edit F}
    (perm : e.Permuted e') (automatic : e.isAutomatic) (small : c.callData.length < 2 ^ 64) :
    Reordered (e.apply c) (e'.apply d) := by
  cases perm with
  | same => exact h.same kind automatic small
  | r1c perm id => exact h.r1c perm id small
  | hint perm name id => exact h.hint perm name id small

/-- So do any number of edits. Places in the buffer are words of 64 bits, so it must not be
    longer. -/
theorem Reordered.edits (h : Reordered c d) (kind : c.kind = .r1cs) {edits edits' : List (Edit F)}
    (perms : List.Forall₂ Edit.Permuted edits edits') (automatic : ∀ e ∈ edits, e.isAutomatic)
    (small : (edits.foldl Edit.apply c).callData.length < 2 ^ 64) :
    Reordered (edits.foldl Edit.apply c) (edits'.foldl Edit.apply d) := by
  induction perms generalizing c d with
  | nil => exact h
  | @cons e e' rest rest' perm _ ih =>
    have before : c.callData.length < 2 ^ 64 :=
      Nat.lt_of_le_of_lt (length_callData_edits (e :: rest) c) small
    have first := h.edit kind perm (automatic e List.mem_cons_self) before
    have kept : (e.apply c).kind = .r1cs := (kind_edits [e] c).trans kind
    exact ih first kept (fun e' he' => automatic e' (List.mem_cons_of_mem e he')) small

end Circuit

end CircuitWitness
