import CircuitWitness.Proofs.Circuit.Additions
import CircuitWitness.Proofs.Circuit.Constraints

/-!
# The operations in order

The instructions of a circuit say a list of operations, to which an added instruction adds one at
the end. The constraints of a circuit are those operations among them that call no hint, and they
are counted and read as such.

Results:
* `HasOperations.grown`, `HasOperations.added`: what an edit makes of the list.
* `countP_of_decoded`: the constraints are counted by the instructions for them.
* `readConstraints_of_decoded`: the constraints are read from the operations, whatever their form.
-/

namespace CircuitWitness

variable {F : PrimeField}

namespace Operation

/-- The gate of an operation that is one. -/
def gate? : Operation → Option Gate
  | .gate g => some g
  | .r1c _ | .hint _ => none

/-- Whether an operation is a constraint. -/
def isConstraint : Operation → Bool
  | .r1c _ | .gate _ => true
  | .hint _ => false

theorem isConstraint_iff_kind {op : Operation} : op.isConstraint ↔ op.kind ≠ .hint := by
  cases op <;> simp [isConstraint, kind]

end Operation

namespace Circuit

variable {c c' : Circuit F}

/-! ## Operations in order -/

/-- The operations that the instructions of a circuit say, in order. Their ids exist. -/
structure HasOperations (c : Circuit F) (ops : List Operation) : Prop where
  decoded : c.instructions.map c.operationOf = ops.map .ok
  inRange : ∀ op ∈ ops, c.InRange op

variable {ops : List Operation}

/-- Instructions say the same when the buffer and the blueprints grow. -/
theorem HasOperations.map_of_prefix (h : c.HasOperations ops)
    (blueprints : c.blueprints <+: c'.blueprints) (callData : c.callData <+: c'.callData) :
    c.instructions.map c'.operationOf = ops.map .ok := by
  refine map_ok_of_map_ok h.decoded fun i op decoded => ?_
  obtain ⟨b, words, parts⟩ := Decoded.of_operationOf decoded
  exact (parts.of_prefix blueprints callData).operation

theorem HasOperations.grown (h : c.HasOperations ops) (grown : Grown c c') :
    c'.HasOperations ops := by
  constructor
  · rw [grown.instructions]
    exact h.map_of_prefix grown.blueprints (by rw [grown.callData])
  · intro op hop
    exact (h.inRange op hop).mono grown.coeffs grown.wireCount

/-- An operation that is added comes last. -/
theorem HasOperations.added (h : c.HasOperations ops) {op : Operation} {noted : List WireId}
    {id : BlueprintId} {b : Blueprint} {words : CallData}
    (addition : c.Addition op noted id b words)
    (small : c.callData.length < 2 ^ 64) (names : OrderedMap HintId String) :
    (c.added op noted id b words names).HasOperations (ops ++ [op]) := by
  have before : c.instructions.map (c.added op noted id b words names).operationOf = ops.map .ok :=
    h.map_of_prefix (List.prefix_refl _) (List.prefix_append _ _)
  have last := addition.operationOf_last small (UInt32.ofNat c.constraintCount) names
  constructor
  · show (c.instructions ++ [_]).map (c.added op noted id b words names).operationOf = _
    rw [List.map_append, List.map_append, before, List.map_singleton, List.map_singleton, last]
  · intro op' hop
    rcases List.mem_append.1 hop with hop | hop
    · exact h.inRange op' hop
    · obtain rfl := List.mem_singleton.1 hop
      exact addition.inRange

theorem HasOperations.getElem? (h : c.HasOperations ops) {p : ℕ}
    {i : Instruction} (found : c.instructions[p]? = some i) :
    ∃ op, ops[p]? = some op ∧ c.operationOf i = .ok op := by
  have same := congrArg (fun l => l[p]?) h.decoded
  simp only [List.getElem?_map, found, Option.map_some] at same
  obtain ⟨op, listed, decoded⟩ := Option.map_eq_some_iff.1 same.symm
  exact ⟨op, listed, decoded.symm⟩

theorem HasOperations.exists_instruction (h : c.HasOperations ops) {op : Operation}
    (mem : op ∈ ops) : ∃ i ∈ c.instructions, c.operationOf i = .ok op := by
  have said : .ok op ∈ c.instructions.map c.operationOf := by
    rw [h.decoded]
    exact List.mem_map_of_mem mem
  exact List.mem_map.1 said

/-- The operations of a circuit are of kinds that it allows. -/
theorem HasOperations.allows (h : c.HasOperations ops) (wf : c.WellFormed) :
    ∀ op ∈ ops, c.kind.allows op.kind := by
  intro op mem
  obtain ⟨i, hi, decoded⟩ := h.exists_instruction mem
  exact wf.allows hi decoded

/-! ## Constraints in order -/

/-- Instructions that say operations stand for as many constraints as there are among these. -/
theorem countP_of_decoded {l : List Instruction} (h : l.map c.operationOf = ops.map .ok) :
    l.countP c.isConstraint = ops.countP Operation.isConstraint := by
  induction l generalizing ops with
  | nil =>
    obtain rfl := List.map_eq_nil_iff.1 h.symm
    rfl
  | cons i l ih =>
    cases ops with
    | nil => cases h
    | cons op ops =>
      obtain ⟨first, rest⟩ := List.cons.inj h
      have same : c.isConstraint i = op.isConstraint :=
        Bool.eq_iff_iff.2 ((isConstraint_iff_kind first).trans Operation.isConstraint_iff_kind.symm)
      rw [List.countP_cons, List.countP_cons, ih rest, same]

/-- Operations whose constraints all have one form list the contents of these. -/
theorem exists_forms {α : Type} {as : α → Operation}
    (each : ∀ op ∈ ops, op.isConstraint → ∃ x, op = as x) :
    ∃ xs : List α, ops.filter Operation.isConstraint = xs.map as := by
  induction ops with
  | nil => exact ⟨[], rfl⟩
  | cons op ops ih =>
    obtain ⟨xs, rest⟩ := ih fun op' mem => each op' (List.mem_cons_of_mem op mem)
    cases constraint : op.isConstraint with
    | false => exact ⟨xs, by rw [List.filter_cons_of_neg (by simp [constraint]), rest]⟩
    | true =>
      obtain ⟨x, rfl⟩ := each op List.mem_cons_self constraint
      exact ⟨x :: xs, by rw [List.filter_cons_of_pos constraint, rest, List.map_cons]⟩

/-- The constraints that instructions stand for are read from their operations. -/
theorem readConstraints_of_decoded {α : Type}
    {read : Blueprint → CallData → Except Blueprint.Error α} {as : α → Operation}
    (reads : ∀ i x, c.operationOf i = .ok (as x) → c.ReadsAs read i x)
    {l : List Instruction} (h : l.map c.operationOf = ops.map .ok) {xs : List α}
    (forms : ops.filter Operation.isConstraint = xs.map as) :
    c.readConstraints read l = .ok xs := by
  induction l generalizing ops xs with
  | nil =>
    obtain rfl := List.map_eq_nil_iff.1 h.symm
    obtain rfl := List.map_eq_nil_iff.1 forms.symm
    rfl
  | cons i l ih =>
    cases ops with
    | nil => cases h
    | cons op ops =>
      obtain ⟨first, rest⟩ := List.cons.inj h
      obtain ⟨b, words, parts⟩ := Decoded.of_operationOf first
      cases constraint : op.isConstraint with
      | false =>
        rw [List.filter_cons_of_neg (by simp [constraint])] at forms
        have hint : b.kind = .hint := by
          rw [parts.read.kind]
          by_contra other
          rw [Operation.isConstraint_iff_kind.2 other] at constraint
          cases constraint
        simp only [readConstraints, parts.blueprint, bind, Except.bind, hint, if_true,
          ih rest forms]
      | true =>
        rw [List.filter_cons_of_pos constraint] at forms
        cases xs with
        | nil => cases forms
        | cons x xs =>
          obtain ⟨rfl, others⟩ := List.cons.inj forms
          obtain ⟨b, words, found, kind, hw, hx⟩ := reads i x first
          simp only [readConstraints, found, bind, Except.bind, kind, if_false, hw, hx,
            ih rest others]
          rfl

/-- The gates of a circuit are those among its operations. -/
theorem readConstraints_gateOf {l : List Instruction} (h : l.map c.operationOf = ops.map .ok)
    (noRankOne : ∀ op ∈ ops, op.kind ≠ .r1c) :
    c.readConstraints Blueprint.gateOf l = .ok (ops.filterMap Operation.gate?) := by
  obtain ⟨gs, forms⟩ : ∃ gs : List Gate, ops.filter Operation.isConstraint = gs.map .gate := by
    refine exists_forms fun op mem constraint => ?_
    cases op with
    | gate g => exact ⟨g, rfl⟩
    | r1c r => exact absurd rfl (noRankOne _ mem)
    | hint call => cases constraint
  have gates : ops.filterMap Operation.gate? = gs := by
    have picked := congrArg (List.filterMap Operation.gate?) forms
    rw [List.filterMap_filter, List.filterMap_map] at picked
    have same : (fun op => if Operation.isConstraint op then op.gate? else none)
        = Operation.gate? := by
      funext op
      cases op <;> rfl
    have whole : Operation.gate? ∘ Operation.gate = some := rfl
    rwa [same, whole, List.filterMap_some] at picked
  rw [gates]
  exact readConstraints_of_decoded (fun i g => readsAs_gateOf.2) h forms

end Circuit

end CircuitWitness
