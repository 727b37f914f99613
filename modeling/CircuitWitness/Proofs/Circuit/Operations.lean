import CircuitWitness.Proofs.Circuit.Decoding
import CircuitWitness.Proofs.Circuit.Evaluation
import CircuitWitness.Proofs.Circuit.Reachable

/-!
# The operations of a circuit

Instructions are read from a buffer that only grows, so an instruction says the same from the
time it is added on. The first instruction that touches a wire defines it, unless it is an input.

Results:
* `Decoded.of_prefix`: an instruction keeps its meaning when the buffer and the blueprints grow.
* `callDataOf_appended`: what is appended are the words of the new instruction.
* `inRange_recoded`: a gate that is in range is so when it is read back.
* `exists_defines`: a wire that is touched and no input is defined.
* `Defines.unique`: a wire is defined once.
-/

namespace CircuitWitness.Circuit

variable {F : PrimeField} {c c' : Circuit F}

/-! ## Meaning -/

theorem callDataOf_eq_ok {i : Instruction} {b : Blueprint} {words : CallData}
    (found : c.blueprintAt i.blueprint = .ok b) :
    c.callDataOf i = .ok words ↔ i.start.toNat ≤ c.callData.length ∧ ∃ n,
      b.callDataLength (c.callData.drop i.start.toNat) = .ok n ∧
        words = (c.callData.drop i.start.toNat).take n := by
  simp only [callDataOf, found, bind, Except.bind]
  by_cases past : c.callData.length < i.start.toNat
  · rw [if_pos past]
    constructor
    · intro h
      cases h
    · rintro ⟨bound, -⟩
      omega
  · rw [if_neg past]
    have bound : i.start.toNat ≤ c.callData.length := by omega
    cases length : b.callDataLength (c.callData.drop i.start.toNat) with
    | error e =>
      constructor
      · intro h
        cases h
      · rintro ⟨-, n, h, -⟩
        cases h
    | ok n =>
      constructor
      · intro h
        exact ⟨bound, n, rfl, (Except.ok.inj h).symm⟩
      · rintro ⟨-, n', h, rfl⟩
        rw [Except.ok.inj h]
        rfl

/-- An instruction keeps its words when the buffer and the blueprints grow. -/
theorem callDataOf_of_prefix {i : Instruction} {words : CallData} (h : c.callDataOf i = .ok words)
    (blueprints : c.blueprints <+: c'.blueprints) (callData : c.callData <+: c'.callData) :
    c'.callDataOf i = .ok words := by
  obtain ⟨b, found, -⟩ := except_bind_ok.1 h
  have found' := blueprintAt_of_prefix blueprints found
  obtain ⟨bound, n, length, rfl⟩ := (callDataOf_eq_ok found).1 h
  obtain ⟨more, same⟩ := callData
  have rest : c'.callData.drop i.start.toNat = c.callData.drop i.start.toNat ++ more := by
    rw [← same, List.drop_append_of_le_length bound]
  refine (callDataOf_eq_ok found').2 ⟨?_, n, ?_, ?_⟩
  · rw [← same, List.length_append]
    omega
  · rw [rest]
    exact Blueprint.callDataLength_append more length
  · rw [rest, List.take_append_of_le_length (Blueprint.length_le_of_callDataLength length)]

/-- The operation depends on the blueprint and the words. -/
theorem operationOf_congr {i i' : Instruction} {b : Blueprint} {words : CallData}
    (hb : c.blueprintAt i.blueprint = .ok b) (hw : c.callDataOf i = .ok words)
    (hb' : c'.blueprintAt i'.blueprint = .ok b) (hw' : c'.callDataOf i' = .ok words) :
    c'.operationOf i' = c.operationOf i := by
  simp only [operationOf, hb, hw, hb', hw', bind, Except.bind]

/-- An instruction keeps its meaning when the buffer and the blueprints grow. -/
theorem Decoded.of_prefix {i : Instruction} {b : Blueprint} {words : CallData} {op : Operation}
    (h : c.Decoded i b words op) (blueprints : c.blueprints <+: c'.blueprints)
    (callData : c.callData <+: c'.callData) : c'.Decoded i b words op := by
  have hb := blueprintAt_of_prefix blueprints h.blueprint
  have hw := callDataOf_of_prefix h.words blueprints callData
  exact ⟨hb, hw, (operationOf_congr h.blueprint h.words hb hw).trans h.operation⟩

/-- The words of the instruction that was added last are those that were appended. -/
theorem callDataOf_appended {id : BlueprintId} {constraint : UInt32} {b : Blueprint}
    {buffer words : CallData} (found : c.blueprintAt id = .ok b)
    (callData : c.callData = buffer ++ words) (small : buffer.length < 2 ^ 64)
    (length : b.callDataLength words = .ok words.length) :
    c.callDataOf ⟨id, constraint, UInt64.ofNat buffer.length⟩ = .ok words := by
  have start : (UInt64.ofNat buffer.length).toNat = buffer.length := by
    rw [UInt64.toNat_ofNat']
    exact Nat.mod_eq_of_lt small
  rw [callDataOf_eq_ok found]
  dsimp only
  rw [start, callData, List.drop_left]
  exact ⟨by rw [List.length_append]; omega, words.length, length, List.take_length.symm⟩

/-! ## Ranges of ids -/

/-- The coefficient and the wire of a term exist. -/
def HasTerm (c : Circuit F) (t : Term) : Prop :=
  t.coeff.toNat < c.coeffs.size ∧ t.wire.toNat < c.wireCount

/-- All coefficients of a gate exist. -/
def HasCoeffs (c : Circuit F) (g : Gate) : Prop := ∀ q ∈ g.coeffs, q.toNat < c.coeffs.size

/-- All ids in an operation exist, also those of wires that take no part. -/
def InRange (c : Circuit F) : Operation → Prop
  | .r1c r => ∀ t ∈ r.terms, c.HasTerm t
  | .gate g => (∀ x ∈ [g.xa, g.xb, g.xc], x.toNat < c.wireCount) ∧ c.HasCoeffs g
  | .hint call => (∀ t ∈ call.terms, c.HasTerm t) ∧ ∀ x ∈ call.outputs, x.toNat < c.wireCount

theorem checkWire_ok {x : WireId} : c.checkWire x = .ok () ↔ x.toNat < c.wireCount := by
  unfold checkWire
  split <;> simp_all

theorem checkCoeff_ok {q : CoeffId} : c.checkCoeff q = .ok () ↔ q.toNat < c.coeffs.size := by
  unfold checkCoeff
  split <;> simp_all

theorem checkTerm_ok {t : Term} : c.checkTerm t = .ok () ↔ c.HasTerm t := by
  simp only [checkTerm, except_bind_ok, checkWire_ok, HasTerm, ← checkCoeff_ok]
  constructor
  · rintro ⟨_, coeff, wire⟩
    exact ⟨coeff, wire⟩
  · rintro ⟨coeff, wire⟩
    exact ⟨(), coeff, wire⟩

theorem checkTerms_ok {l : List Term} :
    l.forM c.checkTerm = .ok () ↔ ∀ t ∈ l, c.HasTerm t := by
  simp only [except_forM_ok, checkTerm_ok]

/-- The wires that take part in a gate exist, and so do all its coefficients. -/
structure HasGate (c : Circuit F) (g : Gate) : Prop where
  wires : ∀ x ∈ g.wires, x.toNat < c.wireCount
  coeffs : c.HasCoeffs g

/-- The ids in an operation exist, but for the wires of a gate that take no part. -/
def HasOperands (c : Circuit F) : Operation → Prop
  | .r1c r => ∀ t ∈ r.terms, c.HasTerm t
  | .gate g => c.HasGate g
  | .hint call => (∀ t ∈ call.terms, c.HasTerm t) ∧ ∀ x ∈ call.outputs, x.toNat < c.wireCount

/-- What the checks of reading say of an operation. -/
theorem checkOperation_ok {op : Operation} : c.checkOperation op = .ok () ↔ c.HasOperands op := by
  cases op with
  | r1c r => exact checkTerms_ok
  | gate g =>
    have wires : g.wires.forM c.checkWire = .ok () ↔ ∀ x ∈ g.wires, x.toNat < c.wireCount := by
      simp only [except_forM_ok, checkWire_ok]
    have coeffs : g.coeffs.forM c.checkCoeff = .ok () ↔ c.HasCoeffs g := by
      simp only [except_forM_ok, checkCoeff_ok, HasCoeffs]
    exact except_bind_ok.trans ⟨fun ⟨_, hw, hc⟩ => ⟨wires.1 hw, coeffs.1 hc⟩,
      fun h => ⟨(), wires.2 h.wires, coeffs.2 h.coeffs⟩⟩
  | hint call =>
    have outputs : call.outputs.forM c.checkWire = .ok () ↔
        ∀ x ∈ call.outputs, x.toNat < c.wireCount := by
      simp only [except_forM_ok, checkWire_ok]
    exact except_bind_ok.trans ⟨fun ⟨_, ht, ho⟩ => ⟨checkTerms_ok.1 ht, outputs.1 ho⟩,
      fun h => ⟨(), checkTerms_ok.2 h.1, outputs.2 h.2⟩⟩

theorem mem_wires_cases {g : Gate} {x : WireId} (h : x ∈ g.wires) : x ∈ [g.xa, g.xb, g.xc] := by
  simp only [Gate.wires] at h
  simp only [List.mem_cons, List.not_mem_nil, or_false]
  grind

theorem InRange.hasOperands {op : Operation} (h : c.InRange op) : c.HasOperands op := by
  cases op with
  | r1c r => exact h
  | gate g => exact ⟨fun x hx => h.1 x (mem_wires_cases hx), h.2⟩
  | hint call => exact h

theorem HasOperands.defines {op : Operation} (h : c.HasOperands op) :
    ∀ x ∈ op.defines, x.toNat < c.wireCount := by
  intro x mem
  cases op with
  | r1c r =>
    obtain ⟨t, ht, rfl⟩ := List.mem_map.1 mem
    exact (h t ht).2
  | gate g => exact h.wires x mem
  | hint call => exact h.2 x mem

theorem InRange.mono {op : Operation} (h : c.InRange op) (coeffs : c.coeffs.size ≤ c'.coeffs.size)
    (wires : c.wireCount ≤ c'.wireCount) : c'.InRange op := by
  have term {t : Term} (ht : c.HasTerm t) : c'.HasTerm t :=
    ⟨Nat.lt_of_lt_of_le ht.1 coeffs, Nat.lt_of_lt_of_le ht.2 wires⟩
  cases op with
  | r1c r => exact fun t ht => term (h t ht)
  | gate g =>
    exact ⟨fun x hx => Nat.lt_of_lt_of_le (h.1 x hx) wires,
      fun q hq => Nat.lt_of_lt_of_le (h.2 q hq) coeffs⟩
  | hint call =>
    exact ⟨fun t ht => term (h.1 t ht), fun x hx => Nat.lt_of_lt_of_le (h.2 x hx) wires⟩

theorem five_le_size (t : CoeffTable F) : 5 ≤ t.size := by
  simp only [CoeffTable.size, CoeffTable.toList, List.length_append]
  have : (reservedCoeffs F).length = 5 := rfl
  omega

/-- A gate that is in range is so when it is read back. -/
theorem inRange_recoded {b : Blueprint} {g : Gate} (h : c.InRange (.gate g)) :
    c.InRange (.gate (b.recoded g)) := by
  obtain ⟨wires, coeffs⟩ := h
  have five := five_le_size c.coeffs
  have zero : (0 : CoeffId).toNat < c.coeffs.size := by
    rw [show (0 : CoeffId).toNat = 0 from rfl]
    omega
  have minusOne : CoeffId.minusOne.toNat < c.coeffs.size := by
    rw [show CoeffId.minusOne.toNat = 3 from rfl]
    omega
  simp only [List.mem_cons, List.not_mem_nil, or_false, forall_eq_or_imp, forall_eq] at wires
  simp only [HasCoeffs, Gate.coeffs, List.mem_cons, List.not_mem_nil, or_false, forall_eq_or_imp,
    forall_eq] at coeffs
  cases b <;> simp only [InRange, HasCoeffs, Blueprint.recoded, Gate.product, Gate.sum, Gate.bit,
    Gate.empty, Gate.coeffs, List.mem_cons, List.not_mem_nil, or_false, forall_eq_or_imp,
    forall_eq] <;> tauto

/-! ## Operations by place -/

/-- The operation of the instruction at a place. -/
def operationAt (c : Circuit F) (p : ℕ) : Option Operation :=
  c.instructions[p]?.bind fun i => (c.operationOf i).toOption

theorem operationAt_eq_some {p : ℕ} {op : Operation} : c.operationAt p = some op ↔
    ∃ i, c.instructions[p]? = some i ∧ c.operationOf i = .ok op := by
  simp only [operationAt, Option.bind_eq_some_iff, except_toOption_eq_some]

theorem lt_of_operationAt {p : ℕ} {op : Operation} (h : c.operationAt p = some op) :
    p < c.instructions.length := by
  obtain ⟨i, found, -⟩ := operationAt_eq_some.1 h
  exact (List.getElem?_eq_some_iff.1 found).1

/-- The wires of an instruction that take part in it: those of a constraint, the outputs of a
    hint. -/
def Touches (c : Circuit F) (p : ℕ) (x : WireId) : Prop :=
  ∃ op, c.operationAt p = some op ∧ x ∈ op.defines

/-- An instruction defines a wire that is no input if it is the first that touches it. -/
def Defines (c : Circuit F) (p : ℕ) (x : WireId) : Prop :=
  c.inputCount ≤ x.toNat ∧ c.Touches p x ∧ ∀ q < p, ¬ c.Touches q x

/-- A wire that is an input, or is defined by an instruction before a place. -/
def KnownBefore (c : Circuit F) (p : ℕ) (x : WireId) : Prop :=
  x.toNat < c.inputCount ∨ ∃ q < p, c.Defines q x

instance (c : Circuit F) (p : ℕ) (x : WireId) : Decidable (c.Touches p x) :=
  decidable_of_iff ((c.operationAt p).any fun op => op.defines.contains x) (by
    simp [Touches, Option.any_eq_true])

instance (c : Circuit F) (p : ℕ) (x : WireId) : Decidable (c.Defines p x) :=
  inferInstanceAs (Decidable (_ ∧ _ ∧ _))

instance (c : Circuit F) (p : ℕ) (x : WireId) : Decidable (c.KnownBefore p x) :=
  inferInstanceAs (Decidable (_ ∨ _))

theorem Defines.lt_length {p : ℕ} {x : WireId} (h : c.Defines p x) :
    p < c.instructions.length := by
  obtain ⟨-, ⟨op, found, -⟩, -⟩ := h
  exact lt_of_operationAt found

theorem Defines.unique {p q : ℕ} {x : WireId} (hp : c.Defines p x) (hq : c.Defines q x) :
    p = q := by
  by_contra other
  rcases Nat.lt_or_gt_of_ne other with lt | gt
  · exact hq.2.2 p lt hp.2.1
  · exact hp.2.2 q gt hq.2.1

/-- The first place with a property that some place has. -/
theorem exists_first {P : ℕ → Prop} {p : ℕ} (h : P p) : ∃ q ≤ p, P q ∧ ∀ r < q, ¬ P r := by
  classical
  exact ⟨Nat.find ⟨p, h⟩, Nat.find_min' ⟨p, h⟩ h, Nat.find_spec ⟨p, h⟩,
    fun r lt => Nat.find_min ⟨p, h⟩ lt⟩

/-- A wire that is touched is defined then or before, unless it is an input. -/
theorem exists_defines {p : ℕ} {x : WireId} (noInput : c.inputCount ≤ x.toNat)
    (h : c.Touches p x) : ∃ q ≤ p, c.Defines q x := by
  obtain ⟨q, le, touches, first⟩ := exists_first (P := (c.Touches · x)) h
  exact ⟨q, le, noInput, touches, first⟩

theorem not_knownBefore {p : ℕ} {x : WireId} (h : c.Defines p x) : ¬ c.KnownBefore p x := by
  rintro (input | ⟨q, lt, defines⟩)
  · have noInput := h.1
    omega
  · rw [defines.unique h] at lt
    omega

theorem knownBefore_of_not_defines {p : ℕ} {x : WireId} (touches : c.Touches p x)
    (h : ¬ c.Defines p x) : c.KnownBefore p x := by
  by_cases input : x.toNat < c.inputCount
  · exact .inl input
  · obtain ⟨q, le, defines⟩ := exists_defines (by omega) touches
    rcases Nat.lt_or_eq_of_le le with lt | rfl
    · exact .inr ⟨q, lt, defines⟩
    · exact absurd defines h

end CircuitWitness.Circuit
