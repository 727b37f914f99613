import CircuitWitness.Circuit.Unconstrained
import CircuitWitness.Proofs.Solver.Refutation
import Mathlib.Data.Set.Card

/-!
# The report on wires without constraint

A wire is constrained if some rank-one constraint has it in a term that is not zero, or if it takes
part in some gate. Hints do not constrain, neither what they read nor what they set. The report
holds the names of the inputs that are not constrained, in their order, and the number of wires that
are set by hints and not constrained; it is the same under every policy. If wires without constraint
are denied, it is the content of the failure.

Results:
* `unconstrainedWires_reports`: the report of a circuit whose instructions can be decoded.
* `constrains_of_addHint`: adding a hint call constrains no wire.
* `Reachable.unconstrained_exact`: the answer under each policy. The buffer must be addressable.
-/

namespace CircuitWitness

variable {F : PrimeField}

/-! ## Lists -/

theorem nodup_eraseDups {α : Type} [DecidableEq α] : ∀ l : List α, l.eraseDups.Nodup
  | [] => by rw [List.eraseDups_nil]; exact List.nodup_nil
  | x :: l => by
    rw [List.eraseDups_cons, List.nodup_cons]
    refine ⟨?_, nodup_eraseDups _⟩
    simp
termination_by l => l.length
decreasing_by exact Nat.lt_succ_of_le (List.length_filter_le _ _)

/-- Without repetitions, as many entries have a property as there are members with it. -/
theorem length_filter_eraseDups {α : Type} [DecidableEq α] (l : List α) (p : α → Bool) :
    (l.eraseDups.filter p).length = {x | x ∈ l ∧ p x}.ncard := by
  have distinct := (nodup_eraseDups l).filter p
  have members : ((l.eraseDups.filter p).toFinset : Set α) = {x | x ∈ l ∧ p x} := by
    rw [List.coe_toFinset]
    ext x
    simp only [Set.mem_ofPred_eq, List.mem_filter, List.mem_eraseDups]
  rw [← members, Set.ncard_coe_finset, List.toFinset_card_of_nodup distinct]

/-- The entries of a list whose places have a property stand at these places, in their order. -/
theorem exists_places {α : Type} (l : List α) (p : ℕ → Bool) :
    ∃ places : List ℕ, places.Pairwise (· < ·) ∧ (∀ k, k ∈ places ↔ k < l.length ∧ p k) ∧
      ((l.zipIdx.filter fun e => p e.2).map Prod.fst).map some = places.map fun k => l[k]? := by
  refine ⟨(l.zipIdx.filter fun e => p e.2).map Prod.snd, ?_, fun k => ?_, ?_⟩
  · have increasing : (l.zipIdx.map Prod.snd).Pairwise (· < ·) := by
      rw [List.zipIdx_map_snd]
      exact List.pairwise_lt_range'
    exact increasing.sublist (List.filter_sublist.map Prod.snd)
  · simp only [List.mem_map, List.mem_filter, List.mem_zipIdx_iff_getElem?]
    constructor
    · rintro ⟨e, ⟨listed, holds⟩, rfl⟩
      exact ⟨(List.getElem?_eq_some_iff.1 listed).1, holds⟩
    · rintro ⟨range, holds⟩
      exact ⟨(l[k], k), ⟨List.getElem?_eq_getElem range, holds⟩, rfl⟩
  · rw [List.map_map, List.map_map]
    refine List.map_congr_left fun e mem => ?_
    exact (List.mem_zipIdx_iff_getElem?.1 (List.mem_filter.1 mem).1).symm

namespace Circuit

variable {c c' : Circuit F}

/-! ## Constrained wires -/

/-- A wire is constrained: it stands in a rank-one constraint with another coefficient than the zero
    entry, or it takes part in a gate. -/
inductive Constrains (c : Circuit F) (x : WireId) : Prop where
  | r1c {i : Instruction} {r : R1C} {t : Term} (mem : i ∈ c.instructions)
    (operation : c.operationOf i = .ok (.r1c r)) (term : t ∈ r.terms)
    (weight : t.coeff ≠ CoeffId.zero) (wire : t.wire = x)
  | gate {i : Instruction} {g : Gate} (mem : i ∈ c.instructions)
    (operation : c.operationOf i = .ok (.gate g)) (part : x ∈ g.wires)

/-- A wire is set by a hint. -/
def SetByHint (c : Circuit F) (x : WireId) : Prop :=
  ∃ i ∈ c.instructions, ∃ call, c.operationOf i = .ok (.hint call) ∧ x ∈ call.outputs

/-- The place of an input that is not constrained. The wire that holds one does not count. -/
def FreeInput (c : Circuit F) (place : ℕ) : Prop :=
  place < c.inputCount ∧ ¬ (c.kind = .r1cs ∧ place = oneWire.toNat) ∧
    ¬ ∃ x : WireId, x.toNat = place ∧ c.Constrains x

/-- What the report of a circuit holds: the names of the inputs that are not constrained, in the
    order of their wires, and the number of wires that are set by hints and not constrained. -/
structure Reports (c : Circuit F) (report : UnconstrainedWires) : Prop where
  inputs : ∃ places : List ℕ, places.Pairwise (· < ·) ∧ (∀ k, k ∈ places ↔ c.FreeInput k) ∧
    report.inputs.map some = places.map fun k => (c.publicNames ++ c.secretNames)[k]?
  hintOutputs : report.hintOutputCount = {x | c.SetByHint x ∧ ¬ c.Constrains x}.ncard

/-! ## The report -/

/-- The operations of a circuit, in any order. -/
def Lists (c : Circuit F) (ops : List Operation) : Prop :=
  ∀ op, op ∈ ops ↔ ∃ i ∈ c.instructions, c.operationOf i = .ok op

variable {ops : List Operation}

theorem Lists.of_map (h : c.instructions.map c.operationOf = ops.map .ok) : c.Lists ops := by
  intro op
  have among : op ∈ ops ↔ .ok op ∈ c.instructions.map c.operationOf := by simp [h]
  rw [among, List.mem_map]

theorem Lists.mem_constrains (h : c.Lists ops) {x : WireId} :
    x ∈ ops.flatMap Operation.constrains ↔ c.Constrains x := by
  rw [List.mem_flatMap]
  constructor
  · rintro ⟨op, mem, part⟩
    obtain ⟨i, stands, operation⟩ := (h op).1 mem
    cases op with
    | r1c r =>
      obtain ⟨t, kept, wire⟩ := List.mem_map.1 part
      obtain ⟨term, weight⟩ := List.mem_filter.1 kept
      exact .r1c stands operation term (by simpa [Term.isZero] using weight) wire
    | gate g => exact .gate stands operation part
    | hint call => cases part
  · rintro (⟨stands, operation, term, weight, wire⟩ | ⟨stands, operation, part⟩)
    · refine ⟨_, (h _).2 ⟨_, stands, operation⟩, List.mem_map.2 ⟨_, ?_, wire⟩⟩
      exact List.mem_filter.2 ⟨term, by simpa [Term.isZero] using weight⟩
    · exact ⟨_, (h _).2 ⟨_, stands, operation⟩, part⟩

theorem Lists.mem_hintOutputs (h : c.Lists ops) {x : WireId} :
    x ∈ ops.flatMap Operation.hintOutputs ↔ c.SetByHint x := by
  rw [List.mem_flatMap]
  constructor
  · rintro ⟨op, mem, output⟩
    obtain ⟨i, stands, operation⟩ := (h op).1 mem
    cases op with
    | r1c r => cases output
    | gate g => cases output
    | hint call => exact ⟨i, stands, call, operation, output⟩
  · rintro ⟨i, stands, call, operation, output⟩
    exact ⟨_, (h _).2 ⟨i, stands, operation⟩, output⟩

theorem exemptCount_le_iff {place : ℕ} :
    c.exemptCount ≤ place ↔ ¬ (c.kind = .r1cs ∧ place = oneWire.toNat) := by
  have one : oneWire.toNat = 0 := rfl
  rw [exemptCount, one]
  cases c.kind with
  | r1cs =>
    show 0 + 1 ≤ place ↔ _
    simp only [true_and]
    omega
  | sparse => simp

/-- If all instructions can be decoded there is a report, and it is right. -/
theorem unconstrainedWires_reports
    (decodes : ∀ i ∈ c.instructions, ∃ op, c.operationOf i = .ok op) :
    ∃ report, c.unconstrainedWires = .ok report ∧ c.Reports report := by
  obtain ⟨ops, decoded⟩ := except_exists_map_ok decodes
  have lists : c.Lists ops := .of_map decoded
  unfold unconstrainedWires
  rw [except_mapM_of_map decoded]
  refine ⟨_, rfl, ?_, ?_⟩
  · obtain ⟨places, increasing, members, names⟩ := exists_places (c.publicNames ++ c.secretNames)
      fun k => c.exemptCount ≤ k && !(ops.flatMap Operation.constrains).any fun w => w.toNat = k
    refine ⟨places, increasing, fun k => ?_, names⟩
    rw [members, FreeInput, inputCount, List.length_append, Bool.and_eq_true, decide_eq_true_iff,
      exemptCount_le_iff, Bool.not_eq_true', List.any_eq_false]
    refine and_congr_right fun _ => and_congr_right fun _ => ?_
    constructor
    · rintro noneConstrained ⟨x, rfl, constrained⟩
      exact noneConstrained x (lists.mem_constrains.2 constrained) (by simp)
    · intro free x mem same
      exact free ⟨x, of_decide_eq_true same, lists.mem_constrains.1 mem⟩
  · show ((ops.flatMap Operation.hintOutputs).eraseDups.filter _).length = _
    rw [length_filter_eraseDups]
    congr 1
    ext x
    rw [Set.mem_ofPred_eq, Set.mem_ofPred_eq, lists.mem_hintOutputs, ← lists.mem_constrains,
      Bool.not_eq_true', List.contains_eq_mem, decide_eq_false_iff_not]

/-- Only a policy that denies fails, and only if there is something to report. -/
theorem checkUnconstrained_eq {report : UnconstrainedWires}
    (found : c.unconstrainedWires = .ok report) (policy : UnconstrainedPolicy) :
    c.checkUnconstrained policy
      = if policy = .deny ∧ ¬ (report.inputs = [] ∧ report.hintOutputCount = 0) then
          .error (.unconstrainedWires report.inputs report.hintOutputCount)
        else .ok report := by
  have full : (!report.isEmpty) = true ↔ ¬ (report.inputs = [] ∧ report.hintOutputCount = 0) := by
    rw [not_and_or]
    simp [UnconstrainedWires.isEmpty]
  have read : c.checkUnconstrained policy
      = if policy = .deny ∧ !report.isEmpty then
          .error (.unconstrainedWires report.inputs report.hintOutputCount)
        else .ok report := by
    rw [checkUnconstrained, found]
    show (do
      if policy = UnconstrainedPolicy.deny ∧ !report.isEmpty then
        throw (Error.unconstrainedWires report.inputs report.hintOutputCount)
      return report) = _
    split <;> rfl
  rw [read]
  simp only [full]

/-! ## Additions -/

/-- An operation that is added is listed with those from before. -/
theorem Lists.added (h : c.Lists ops)
    (decodes : ∀ i ∈ c.instructions, ∃ op, c.operationOf i = .ok op)
    {op : Operation} {noted : List WireId} {id : BlueprintId} {b : Blueprint} {words : CallData}
    (addition : c.Addition op noted id b words) (buffer : c.callData.length < 2 ^ 64)
    (names : OrderedMap HintId String) :
    (c.added op noted id b words names).Lists (ops ++ [op]) := by
  have ext : c.Extends (c.added op noted id b words names) := .added op noted id b words names
  have last := addition.operationOf_last buffer (UInt32.ofNat c.constraintCount) names
  have old (i : Instruction) (mem : i ∈ c.instructions) (op' : Operation) :
      (c.added op noted id b words names).operationOf i = .ok op' ↔ c.operationOf i = .ok op' := by
    obtain ⟨op₀, decoded⟩ := decodes i mem
    rw [decoded, ext.operationOf decoded]
  intro op'
  rw [List.mem_append, h op', List.mem_singleton]
  constructor
  · rintro (⟨i, mem, decoded⟩ | rfl)
    · exact ⟨i, List.mem_append_left _ mem, (old i mem op').2 decoded⟩
    · exact ⟨_, List.mem_append_right _ (List.mem_singleton_self _), last⟩
  · rintro ⟨i, mem, decoded⟩
    obtain mem | new := List.mem_append.1 mem
    · exact .inl ⟨i, mem, (old i mem op').1 decoded⟩
    · rw [List.mem_singleton.1 new, last] at decoded
      exact .inr (Except.ok.inj decoded).symm

/-- A hint call that is added constrains no wire. -/
theorem constrains_of_addHint (decodes : ∀ i ∈ c.instructions, ∃ op, c.operationOf i = .ok op)
    (buffer : c.callData.length < 2 ^ 64) {call : HintCall} {name : String} {id : BlueprintId}
    (ran : (addHint call name id).run c = .ok () c') (x : WireId) :
    c'.Constrains x ↔ c.Constrains x := by
  obtain ⟨ops, decoded⟩ := except_exists_map_ok decodes
  have lists : c.Lists ops := .of_map decoded
  obtain ⟨e, refused⟩ | ⟨b, found, named, inRange, outputs, small, -⟩ := addHint_run call name id c
  · rw [refused] at ran
    cases ran
  · have after : c' = (Edit.hint call name id).apply c := by rw [Edit.apply, ran]; rfl
    rw [after, apply_hint found named inRange outputs small,
      ← (lists.added decodes (.of_hint found inRange outputs small) buffer _).mem_constrains,
      ← lists.mem_constrains, List.flatMap_append]
    simp [Operation.constrains]

/-! ## The answer -/

/-- Under a policy that does not deny, the answer is the report; under one that does, it is so if
    the report is empty, and else fails with it. A hint call that is added leaves the constrained
    wires as they are. -/
theorem Reachable.unconstrained_exact (reachable : c.Reachable)
    (buffer : c.callData.length < 2 ^ 64) :
    (∃ report, c.Reports report ∧ ∀ policy, c.checkUnconstrained policy
      = if policy = .deny ∧ ¬ (report.inputs = [] ∧ report.hintOutputCount = 0) then
          .error (.unconstrainedWires report.inputs report.hintOutputCount)
        else .ok report) ∧
    ∀ call name id c', (addHint call name id).run c = .ok () c' →
      ∀ x, c'.Constrains x ↔ c.Constrains x := by
  have decodes := reachable.decodes buffer
  obtain ⟨report, found, right⟩ := unconstrainedWires_reports decodes
  exact ⟨⟨report, right, checkUnconstrained_eq found⟩,
    fun call name id c' ran => constrains_of_addHint decodes buffer ran⟩

/-- Inputs `x` and `y`, where a hint takes the bits of `x` and a gate says that `y` is a bit. -/
def hintedInputCircuit : Circuit .tiny :=
  [.publicInput "x", .secretInput "y", .internal, .blueprint .genericHint, .blueprint .bool,
    .hint ⟨hintId "bits", [[⟨1, 0⟩]], [2]⟩ "bits" 0, .gate (.bit 1 3 1) 1].foldl Edit.apply
      (.empty .tiny .sparse)

/-- That the hint reads `x` does not constrain it. -/
theorem hintedInputCircuit_unconstrained :
    hintedInputCircuit.Reachable ∧ hintedInputCircuit.callData.length < 2 ^ 64 ∧
      hintedInputCircuit.Reports ⟨["x"], 1⟩ ∧
      hintedInputCircuit.checkUnconstrained .deny = .error (.unconstrainedWires ["x"] 1) := by
  have facts : hintedInputCircuit.callData.length = 10 ∧
      hintedInputCircuit.checkUnconstrained .warn = .ok ⟨["x"], 1⟩ := by
    decide +kernel
  have reachable : hintedInputCircuit.Reachable := Reachable.edits (.empty .sparse) _
  have buffer : hintedInputCircuit.callData.length < 2 ^ 64 := by
    rw [facts.1]
    decide
  obtain ⟨⟨report, right, answer⟩, -⟩ := reachable.unconstrained_exact buffer
  have warned := answer .warn
  rw [facts.2, if_neg (fun denied => nomatch denied.1)] at warned
  obtain rfl := Except.ok.inj warned
  exact ⟨reachable, buffer, right, by rw [answer, if_pos (by decide)]⟩

end Circuit

end CircuitWitness
