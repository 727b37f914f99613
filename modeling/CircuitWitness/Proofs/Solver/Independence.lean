import CircuitWitness.Proofs.Circuit.Constraints
import CircuitWitness.Proofs.Circuit.Leveling
import CircuitWitness.Proofs.Solver.Compression
import CircuitWitness.Proofs.Solver.Runs

/-!
# Instructions of one level

An instruction looks at certain wires and fills certain others, whatever the state is. In a
circuit that leveled itself, the instructions of one level have nothing to do with each other: a
wire that one of them looks at and another one may fill was solved before the level began.

Results:
* `Writes.solveInstruction`: an instruction fills its own wires and its own row only.
* `solveInstruction_similar`: an instruction looks at its own wires and its own row only.
* `solveInstruction_settles`: an instruction that ended well leaves the wires it defines solved.
* `Ready.independent`: the instructions of a level are independent of each other.
-/

namespace CircuitWitness

variable {F : PrimeField}

/-! ## What an instruction looks at -/

namespace Operation

/-- The wires that an operation leaves solved: those of a constraint, unless the solver passes over
    it, and the outputs of a hint. -/
def settles : Operation → List WireId
  | .r1c r => r.terms.map Term.wire
  | .gate g => if g.commitment = .asserts then [] else g.wires
  | .hint call => call.outputs

/-- The wires that the solver looks at in an operation: those that it leaves solved, and those
    inputs of a hint that have a weight. -/
def inspects : Operation → List WireId
  | .hint call => (call.terms.filter fun t => !t.isZero).map Term.wire ++ call.outputs
  | op => op.settles

theorem settles_subset_inspects (op : Operation) : op.settles ⊆ op.inspects := by
  cases op with
  | r1c r => exact List.Subset.refl _
  | gate g => exact List.Subset.refl _
  | hint call => exact List.subset_append_right _ _

theorem settles_subset_defines (op : Operation) : op.settles ⊆ op.defines := by
  cases op with
  | r1c r => exact List.Subset.refl _
  | hint call => exact List.Subset.refl _
  | gate g =>
    by_cases asserts : g.commitment = .asserts
    · rw [settles, if_pos asserts]
      exact List.nil_subset _
    · rw [settles, if_neg asserts]
      exact List.Subset.refl _

end Operation

namespace Circuit

variable (c : Circuit F)

/-- The places of the wires that an instruction looks at. -/
def lookedAt (p : ℕ) : Set ℕ :=
  { i | ∃ op, c.operationAt p = some op ∧ i ∈ Solver.places op.inspects }

/-- The places of the wires that an instruction may fill, and leaves filled if it ends well. -/
def fillable (p : ℕ) : Set ℕ :=
  { i | ∃ op, c.operationAt p = some op ∧ i ∈ Solver.places op.settles }

/-- The row of a rank-one constraint. -/
def ownRow (p : ℕ) : Set ℕ :=
  { k | ∃ i r, c.instructions[p]? = some i ∧ c.operationOf i = .ok (.r1c r) ∧
    i.constraint.toNat = k }

/-- What the operation at a place needs before it: a hint what it reads, and a gate that asserts a
    committed value all its wires. -/
def Needs (p : ℕ) : Operation → Prop
  | .r1c _ => True
  | .gate g => g.commitment = .asserts → ∀ x ∈ g.wires, c.KnownBefore p x
  | .hint call => ∀ t ∈ call.terms, t.isZero = false → c.KnownBefore p t.wire

instance (p : ℕ) : (op : Operation) → Decidable (c.Needs p op)
  | .r1c _ => inferInstanceAs (Decidable True)
  | .gate g =>
    -- Only the wires of the gate are looked at, not all words.
    letI := List.decidableBAll (c.KnownBefore p) g.wires
    inferInstanceAs (Decidable (_ → ∀ x ∈ g.wires, c.KnownBefore p x))
  | .hint call => inferInstanceAs (Decidable (∀ t ∈ call.terms, _ → c.KnownBefore p t.wire))

/-- Hints read inputs and wires that were defined before, and so do gates that assert a committed
    value. -/
def ReadsKnown : Prop := ∀ p op, c.operationAt p = some op → c.Needs p op

instance : Decidable c.ReadsKnown :=
  decidable_of_iff (∀ p < c.instructions.length, ∀ op ∈ c.operationAt p, c.Needs p op)
    ⟨fun h p op opAt => h p (lt_of_operationAt opAt) op opAt, fun h p _ op opAt => h p op opAt⟩

variable {c}

theorem lookedAt_eq {p : ℕ} {op : Operation} (h : c.operationAt p = some op) :
    c.lookedAt p = Solver.places op.inspects := by
  ext i
  simp [lookedAt, h]

theorem fillable_eq {p : ℕ} {op : Operation} (h : c.operationAt p = some op) :
    c.fillable p = Solver.places op.settles := by
  ext i
  simp [fillable, h]

/-- A wire that an instruction may fill is one that it touches. -/
theorem touches_of_fillable {p : ℕ} {x : WireId} (h : x.toNat ∈ c.fillable p) : c.Touches p x := by
  obtain ⟨op, opAt, mem⟩ := h
  exact ⟨op, opAt, op.settles_subset_defines (Solver.mem_places.1 mem)⟩

theorem ReadsKnown.hint (h : c.ReadsKnown) {p : ℕ} {call : HintCall}
    (opAt : c.operationAt p = some (.hint call)) :
    ∀ t ∈ call.terms, t.isZero = false → c.KnownBefore p t.wire :=
  h p _ opAt

theorem ReadsKnown.asserts (h : c.ReadsKnown) {p : ℕ} {g : Gate}
    (opAt : c.operationAt p = some (.gate g)) :
    g.commitment = .asserts → ∀ x ∈ g.wires, c.KnownBefore p x :=
  h p _ opAt

/-- If what is asserted was known before, an instruction leaves the wires solved that it
    defines. -/
theorem ReadsKnown.fillable (h : c.ReadsKnown) {p : ℕ} {x : WireId} (defines : c.Defines p x) :
    x.toNat ∈ c.fillable p := by
  obtain ⟨op, opAt, mem⟩ := defines.2.1
  refine ⟨op, opAt, Solver.mem_places.2 ?_⟩
  cases op with
  | r1c r => exact mem
  | hint call => exact mem
  | gate g =>
    have unasserted : g.commitment ≠ .asserts := fun asserts =>
      not_knownBefore defines (h.asserts opAt asserts x mem)
    rw [Operation.settles, if_neg unasserted]
    exact mem

theorem fillable_subset (p : ℕ) : c.fillable p ⊆ c.lookedAt p := by
  rintro i ⟨op, opAt, x, hx, rfl⟩
  exact ⟨op, opAt, x, op.settles_subset_inspects hx, rfl⟩

theorem ownRow_eq {p : ℕ} {i : Instruction} {op : Operation} (found : c.instructions[p]? = some i)
    (decoded : c.operationOf i = .ok op) : c.ownRow p = Solver.rowsOf i.constraint op := by
  ext k
  simp only [ownRow, found, Option.some.injEq, Set.mem_ofPred_eq]
  cases op with
  | r1c r =>
    constructor
    · rintro ⟨_, r', rfl, -, rfl⟩
      exact rfl
    · rintro rfl
      exact ⟨i, r, rfl, decoded, rfl⟩
  | gate | hint =>
    constructor
    · rintro ⟨_, r', rfl, decoded', -⟩
      cases decoded.symm.trans decoded'
    · intro h
      exact absurd h (Set.notMem_empty k)

/-- Two constraints have different rows. -/
theorem ownRow_injective (wf : c.WellFormed) (small : c.instructions.length ≤ wordRange)
    {p q k : ℕ} (hp : k ∈ c.ownRow p) (hq : k ∈ c.ownRow q) : p = q := by
  have number {p : ℕ} {i : Instruction} {r : R1C} (found : c.instructions[p]? = some i)
      (decoded : c.operationOf i = .ok (.r1c r)) :
      i.constraint.toNat = c.constraintsBefore p ∧ c.isConstraint i := by
    obtain ⟨bound, -⟩ := List.getElem?_eq_some_iff.1 found
    have before := c.constraintsBefore_le p
    exact ⟨wf.number_toNat found (by omega), (readsAs_r1cOf decoded).isConstraint⟩
  obtain ⟨i, r, found, decoded, rfl⟩ := hp
  obtain ⟨j, r', found', decoded', same⟩ := hq
  obtain ⟨ni, ci⟩ := number found decoded
  obtain ⟨nj, cj⟩ := number found' decoded'
  exact constraintsBefore_injective found found' ci cj (by rw [← ni, ← nj, same])

theorem Leveled.decoded {level : ℕ → ℕ} (h : c.Leveled level) {p : ℕ}
    (hp : p < c.instructions.length) : ∃ i op b words, c.instructions[p]? = some i ∧
      c.operationAt p = some op ∧ c.Decoded i b words op ∧ c.InRange op := by
  obtain ⟨op, opAt, inRange⟩ := h.decodes p hp
  obtain ⟨i, found, decoded⟩ := operationAt_eq_some.1 opAt
  obtain ⟨b, words, parts⟩ := Decoded.of_operationOf decoded
  exact ⟨i, op, b, words, found, opAt, parts, inRange⟩

end Circuit

namespace Solver

variable {c : Circuit F} {hints : HintRegistry} {level : ℕ → ℕ} {s s' t : State F}

/-! ## Single instructions -/

theorem Agree.mono {R R' K K' : Set ℕ} (h : Agree R K s t) (hR : R' ⊆ R) (hK : K' ⊆ K) :
    Agree R' K' s t :=
  ⟨h.wireCount, h.rowCount, fun i hi => h.values i (hR hi), fun k hk => h.rows k (hK hk)⟩

theorem Similar.of_univ {α : Type} {r r' : EStateM.Result (Error F) (State F) α}
    (h : Similar .univ .univ r r') (R K : Set ℕ) : Similar R K r r' := by
  cases h with
  | ok agree => exact .ok (agree.mono (Set.subset_univ R) (Set.subset_univ K))
  | error gist => exact .error gist

/-- A program that fills only what it looks at leaves states alike everywhere. -/
theorem Local.everywhere {α : Type} {R K : Set ℕ} {x : Solve F α} (h : Local R K x)
    (writes : Writes R K x) : Local .univ .univ x := by
  intro s t agree
  have similar := h s t (agree.mono (Set.subset_univ R) (Set.subset_univ K))
  cases hs : x.run s with
  | error e s' =>
    rw [hs] at similar
    obtain ⟨e', t', ht, gist⟩ := similar.of_error
    rw [ht]
    exact .error gist
  | ok a s' =>
    rw [hs] at similar
    obtain ⟨t', ht, inside⟩ := similar.of_ok
    have left := writes.ok hs
    have right := writes.ok ht
    rw [ht]
    refine .ok ⟨inside.wireCount, inside.rowCount, fun i _ => ?_, fun k _ => ?_⟩
    · by_cases hi : i ∈ R
      · exact inside.values i hi
      · rw [left.values.outside hi, right.values.outside hi, agree.values i trivial]
    · by_cases hk : k ∈ K
      · exact inside.rows k hk
      · rw [left.rows.outside hk, right.rows.outside hk, agree.rows k trivial]

/-- An instruction fills no wires but those that it may fill, and no row but that of its own
    constraint, decoded or not. -/
theorem Writes.solveInstruction (c : Circuit F) (hints : HintRegistry) (index : UInt32) :
    Writes (c.fillable index.toNat) (c.ownRow index.toNat) (solveInstruction c hints index) := by
  obtain ⟨-, fault, eq⟩ | ⟨i, b, words, op, found, parts, eq⟩ :=
    solveInstruction_cases c hints index
  · rw [eq]
    exact .fail fault
  · have opAt := Circuit.operationAt_eq_some.2 ⟨i, found, parts.operation⟩
    rw [eq, Circuit.fillable_eq opAt, Circuit.ownRow_eq found parts.operation]
    cases op with
    | r1c r => exact .solveR1C c i.constraint r
    | hint call => exact .solveHint c hints call
    | gate g =>
      by_cases asserts : g.commitment = .asserts
      · exact .passedOver c i.constraint parts.read.2 asserts
      · rw [Operation.settles, if_neg asserts]
        exact .solvePackedGate c i.constraint parts.read.2

/-- Solves or checks an operation without regard to its layout. -/
def solvePlain (c : Circuit F) (hints : HintRegistry) (constraint : UInt32) :
    Operation → Solve F Unit
  | .r1c r => solveR1C c constraint r
  | .gate g => solveGate c constraint g
  | .hint h => solveHint c hints h

theorem Writes.solvePlain (c : Circuit F) (hints : HintRegistry) (constraint : UInt32)
    (op : Operation) :
    Writes (places op.inspects) (rowsOf constraint op) (solvePlain c hints constraint op) := by
  cases op with
  | r1c r => exact .solveR1C c constraint r
  | hint call =>
    refine (Writes.solveHint c hints call).mono ?_ (Set.Subset.refl _)
    rintro i ⟨x, hx, rfl⟩
    exact mem_places.2 (List.mem_append_right _ hx)
  | gate g =>
    by_cases asserts : g.commitment = .asserts
    · rw [Solver.solvePlain, Solver.solveGate, if_pos asserts]
      exact .pure ()
    · rw [show (Operation.gate g).inspects = g.wires from if_neg asserts]
      exact .solveGate c constraint g

/-- An operation looks at its own wires and its own row only. -/
theorem Local.solvePlain (c : Circuit F) (hints : HintRegistry) (constraint : UInt32)
    (op : Operation) :
    Local (places op.inspects) (rowsOf constraint op) (solvePlain c hints constraint op) := by
  cases op with
  | r1c r => exact .solveR1C c constraint r
  | gate g =>
    by_cases asserts : g.commitment = .asserts
    · rw [Solver.solvePlain, Solver.solveGate, if_pos asserts]
      exact .pure ()
    · rw [show (Operation.gate g).inspects = g.wires from if_neg asserts]
      exact .solveGate c constraint g
  | hint call =>
    refine .solveHint c hints (fun x hx weight => ?_) (fun x hx => ?_)
    · have mem : x ∈ call.terms.filter fun t => !t.isZero :=
        List.mem_filter.2 ⟨hx, by rw [weight]; rfl⟩
      exact mem_places.2 (List.mem_append_left _ (List.mem_map_of_mem mem))
    · exact mem_places.2 (List.mem_append_right _ hx)

/-- The layout of an operation makes no difference. -/
theorem solveOperation_similar (hp : F.IsPrime) (hints : HintRegistry) {i : Instruction}
    {b : Blueprint} {words : CallData} {op : Operation} (parts : c.Decoded i b words op)
    (inRange : c.InRange op) (size : s.values.length = c.wireCount) : Similar .univ .univ
      ((solveOperation c hints i.constraint b words op).run s)
      ((solvePlain c hints i.constraint op).run s) := by
  cases op with
  | r1c r => exact .refl _ _ _
  | hint call => exact .refl _ _ _
  | gate g =>
    obtain ⟨wires, coeffs⟩ := inRange
    exact solvePackedGate_similar hp parts.read.2 coeffs (by rwa [size])

/-- An instruction looks at its own wires and its own row only. -/
theorem solveInstruction_similar (hp : F.IsPrime) (h : c.Leveled level) (hints : HintRegistry)
    {index : UInt32} (bound : index.toNat < c.instructions.length)
    (size : s.values.length = c.wireCount)
    (agree : Agree (c.lookedAt index.toNat) (c.ownRow index.toNat) s t) :
    Similar (c.lookedAt index.toNat) (c.ownRow index.toNat)
      ((solveInstruction c hints index).run s) ((solveInstruction c hints index).run t) := by
  obtain ⟨i, op, b, words, found, opAt, parts, inRange⟩ := h.decoded bound
  rw [Circuit.lookedAt_eq opAt, Circuit.ownRow_eq found parts.operation] at agree ⊢
  rw [solveInstruction_eq found parts]
  have left := solveOperation_similar hp hints parts inRange size
  have right := solveOperation_similar hp hints parts inRange (agree.wireCount.symm.trans size)
  have plain := Local.solvePlain c hints i.constraint op s t agree
  exact ((left.of_univ _ _).trans plain).trans (right.of_univ _ _).symm

/-- An instruction that ended well leaves all wires solved that it may fill. -/
theorem solveInstruction_settles (hp : F.IsPrime) {index : UInt32} {u : Unit}
    (run : (solveInstruction c hints index).run s = .ok u s') {x : WireId}
    (fill : x.toNat ∈ c.fillable index.toNat) : s'.Solved x := by
  obtain ⟨i, b, words, op, found, parts, ended⟩ := solveInstruction_ok run
  rw [Circuit.fillable_eq (Circuit.operationAt_eq_some.2 ⟨i, found, parts.operation⟩)] at fill
  have mem := mem_places.1 fill
  cases op with
  | r1c r =>
    obtain ⟨t, ht, rfl⟩ := List.mem_map.1 mem
    exact (solveR1C_ok hp ended).1 t ht
  | hint call => exact (solveHint_ok ended).1 x mem
  | gate g =>
    by_cases asserts : g.commitment = .asserts
    · rw [Operation.settles, if_pos asserts] at mem
      exact absurd mem List.not_mem_nil
    · rw [Operation.settles, if_neg asserts] at mem
      exact (solvePackedGate_ok hp parts.read.2 ended).1 asserts x mem

/-- An instruction looks at the wires that it may fill and at wires that it reads. -/
theorem inspects_cases {op : Operation} {x : WireId} (hx : x ∈ op.inspects) : x ∈ op.settles ∨
    ∃ call t, op = .hint call ∧ t ∈ call.terms ∧ t.isZero = false ∧ t.wire = x := by
  cases op with
  | r1c r => exact .inl hx
  | gate g => exact .inl hx
  | hint call =>
    rcases List.mem_append.1 hx with hx | hx
    · obtain ⟨t, ht, rfl⟩ := List.mem_map.1 hx
      obtain ⟨mem, weight⟩ := List.mem_filter.1 ht
      exact .inr ⟨call, t, rfl, mem, by simpa using weight, rfl⟩
    · exact .inl hx

/-- An instruction that ended well found the wires solved that it only reads. -/
theorem solveInstruction_reads {index : UInt32} {u : Unit}
    (one : c.kind = .r1cs → s.Solved oneWire)
    (run : (solveInstruction c hints index).run s = .ok u s') {x : WireId}
    (look : x.toNat ∈ c.lookedAt index.toNat) :
    x.toNat ∈ c.fillable index.toNat ∨ s.Solved x := by
  obtain ⟨i, b, words, op, found, parts, ended⟩ := solveInstruction_ok run
  have opAt := Circuit.operationAt_eq_some.2 ⟨i, found, parts.operation⟩
  rw [Circuit.lookedAt_eq opAt] at look
  rw [Circuit.fillable_eq opAt]
  obtain settled | ⟨call, t, rfl, ht, weight, rfl⟩ := inspects_cases (mem_places.1 look)
  · exact .inl (mem_places.2 settled)
  · right
    cases constant : c.kind.isConstant t with
    | false => exact solveHint_solved ended t ht weight constant
    | true =>
      obtain ⟨kind, wire⟩ := isConstant_iff.1 constant
      rw [wire]
      exact one kind

/-- A constraint that ended well has recorded its row. -/
theorem solveInstruction_records (hp : F.IsPrime) {index : UInt32} {u : Unit}
    (run : (solveInstruction c hints index).run s = .ok u s') {k : ℕ}
    (own : k ∈ c.ownRow index.toNat) : ∃ row, s'.rows[k]? = some (some row) := by
  obtain ⟨i, b, words, op, found, parts, ended⟩ := solveInstruction_ok run
  rw [Circuit.ownRow_eq found parts.operation] at own
  cases op with
  | gate g => exact absurd own (Set.notMem_empty k)
  | hint call => exact absurd own (Set.notMem_empty k)
  | r1c r =>
    obtain rfl := Set.mem_singleton_iff.1 own
    exact ⟨_, ((solveR1C_ok hp ended).2 _ (extends_filled s')).2⟩

/-! ## Levels -/

/-- A state in which a level begins: the inputs are solved, and all wires that lower levels
    define. -/
structure Ready (c : Circuit F) (level : ℕ → ℕ) (l : ℕ) (s : State F) : Prop where
  size : s.values.length = c.wireCount
  inputs : ∀ x : WireId, x.toNat < c.inputCount → s.Solved x
  lower : ∀ p x, c.Defines p x → level p < l → s.Solved x

/-- Instructions that share a wire which one of them may fill, or a row, only if it is filled
    already. -/
structure Independent (c : Circuit F) (s : State F) (indices : List UInt32) : Prop where
  size : s.values.length = c.wireCount
  bound : ∀ index ∈ indices, index.toNat < c.instructions.length
  nodup : indices.Nodup
  wires : ∀ p ∈ indices, ∀ q ∈ indices, p ≠ q → ∀ i ∈ c.lookedAt p.toNat,
    i ∈ c.fillable q.toNat → s.values[i]? ≠ some none
  rows : ∀ p ∈ indices, ∀ q ∈ indices, p ≠ q → ∀ k ∈ c.ownRow p.toNat, k ∉ c.ownRow q.toNat

/-- The instruction that is first to touch a wire stands below all later ones that look at it. -/
theorem level_lt_of_later (h : c.Leveled level) {p q : ℕ} {x : WireId} (lt : q < p)
    (look : x.toNat ∈ c.lookedAt p) (defines : c.Defines q x) : level q < level p := by
  obtain ⟨op, opAt, mem⟩ := look
  obtain settled | ⟨call, t, rfl, ht, -, rfl⟩ := inspects_cases (mem_places.1 mem)
  · have touched := op.settles_subset_defines settled
    cases op with
    | r1c r => exact h.order p _ x opAt touched q lt defines
    | gate g => exact h.order p _ x opAt touched q lt defines
    | hint call =>
      have same := (h.outputs p call x opAt touched).unique defines
      omega
  · exact h.order p _ _ opAt (List.mem_map_of_mem ht) _ lt defines

/-- If all is known that is read, it stands below every other one that looks at the wire. -/
theorem level_lt_of_inspects (h : c.Leveled level) (known : c.ReadsKnown) {p q : ℕ} {x : WireId}
    (other : p ≠ q) (look : x.toNat ∈ c.lookedAt p) (defines : c.Defines q x) :
    level q < level p := by
  obtain ⟨op, opAt, mem⟩ := look
  have lt : q < p := by
    obtain settled | ⟨call, t, rfl, ht, weight, rfl⟩ := inspects_cases (mem_places.1 mem)
    · by_contra above
      exact defines.2.2 p (by omega) ⟨op, opAt, op.settles_subset_defines settled⟩
    · obtain input | ⟨q', lt, defines'⟩ := known.hint opAt t ht weight
      · have noInput := defines.1
        omega
      · rwa [defines'.unique defines] at lt
  exact level_lt_of_later h lt ⟨op, opAt, mem⟩ defines

/-- A wire that an instruction may fill is an input, or was defined in a lower level, or is defined
    by that instruction. -/
theorem fillable_cases (h : c.Leveled level) {q : ℕ} {x : WireId}
    (hx : x.toNat ∈ c.fillable q) : x.toNat < c.inputCount ∨ c.Defines q x ∨
      ∃ d < q, c.Defines d x ∧ level d < level q := by
  obtain ⟨op, opAt, touched⟩ := Circuit.touches_of_fillable hx
  by_cases input : x.toNat < c.inputCount
  · exact .inl input
  · obtain ⟨d, le, defines⟩ := Circuit.exists_defines (by omega) ⟨op, opAt, touched⟩
    obtain lt | rfl := Nat.lt_or_eq_of_le le
    · cases op with
      | r1c r => exact .inr (.inr ⟨d, lt, defines, h.order q _ x opAt touched d lt defines⟩)
      | gate g => exact .inr (.inr ⟨d, lt, defines, h.order q _ x opAt touched d lt defines⟩)
      | hint call => exact .inr (.inl (h.outputs q call x opAt touched))
    · exact .inr (.inl defines)

/-- The instructions of a level are independent of each other. -/
theorem Ready.independent (wf : c.WellFormed) (h : c.Leveled level) (known : c.ReadsKnown)
    (small : c.instructions.length ≤ wordRange) {l : ℕ} (ready : Ready c level l s) :
    Independent c s (Levels.indicesAt level c.instructions.length l) := by
  refine ⟨ready.size, fun index mem => ((mem_indicesAt small).1 mem).1,
    (pairwise_indicesAt small).imp UInt32.ne_of_lt, fun p hp q hq other i look fill => ?_,
    fun p hp q hq other k kp kq => ?_⟩
  · obtain ⟨-, lp⟩ := (mem_indicesAt small).1 hp
    obtain ⟨-, lq⟩ := (mem_indicesAt small).1 hq
    have isWire : ∃ x : WireId, x.toNat = i := by
      obtain ⟨op, -, x, -, eq⟩ := fill
      exact ⟨x, eq⟩
    obtain ⟨x, rfl⟩ := isWire
    have solved : s.Solved x := by
      obtain input | defines | ⟨d, -, defines, lower⟩ := fillable_cases h fill
      · exact ready.inputs x input
      · have apart : p.toNat ≠ q.toNat := fun same => other (UInt32.toNat_inj.1 same)
        have below := level_lt_of_inspects h known apart look defines
        omega
      · exact ready.lower d x defines (by omega)
    obtain ⟨v, solved⟩ := solved
    rw [solved]
    simp
  · exact other (UInt32.toNat_inj.1 (Circuit.ownRow_injective wf small kp kq))

end Solver

end CircuitWitness
