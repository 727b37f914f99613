import CircuitWitness.Proofs.Circuit.Decoding
import CircuitWitness.Proofs.Circuit.Reachable

/-!
# The constraints of a circuit

Constraint number `k` is read from the instruction before which there are `k` constraints. The
instructions carry these numbers, as far as they fit into a word.

Results:
* `constraintsBefore_injective`: two constraints have different numbers.
* `readConstraints_ok`: which instruction each constraint is read from.
* `getElem?_of_readsAs`: the constraint of an instruction stands at its number.
* `exists_readConstraints`: if every constraint can be read, so can their list.
-/

namespace CircuitWitness.Circuit

variable {F : PrimeField} {c : Circuit F}

/-! ## Numbers -/

theorem countP_take_lt {α : Type} {holds : α → Bool} {l : List α} {p q : ℕ} {x : α}
    (listed : l[p]? = some x) (hx : holds x) (hpq : p < q) :
    (l.take p).countP holds < (l.take q).countP holds := by
  obtain ⟨bound, rfl⟩ := List.getElem?_eq_some_iff.1 listed
  have step : (l.take (p + 1)).countP holds = (l.take p).countP holds + 1 := by
    rw [List.take_add_one, List.getElem?_eq_getElem bound, List.countP_append]
    simp [hx]
  have grow : (l.take (p + 1)).countP holds ≤ (l.take q).countP holds :=
    (List.take_sublist_take_left (by omega)).countP_le
  omega

theorem constraintsBefore_injective {p q : ℕ} {i j : Instruction}
    (hp : c.instructions[p]? = some i) (hq : c.instructions[q]? = some j)
    (ci : c.isConstraint i) (cj : c.isConstraint j)
    (same : c.constraintsBefore p = c.constraintsBefore q) : p = q := by
  unfold constraintsBefore at same
  by_contra other
  rcases Nat.lt_or_gt_of_ne other with lt | gt
  · have := countP_take_lt hp ci lt
    omega
  · have := countP_take_lt hq cj gt
    omega

theorem constraintsBefore_le (c : Circuit F) (p : ℕ) : c.constraintsBefore p ≤ p :=
  List.countP_le_length.trans (List.length_take_le _ _)

theorem constraintsBefore_lt (h : WellFormed c) {p : ℕ} {i : Instruction}
    (found : c.instructions[p]? = some i) (ci : c.isConstraint i) :
    c.constraintsBefore p < c.constraintCount := by
  obtain ⟨bound, -⟩ := List.getElem?_eq_some_iff.1 found
  have := countP_take_lt found ci bound
  rwa [List.take_length, ← h.count] at this

/-- Every number below the count is that of an entry. -/
theorem exists_countP_take {α : Type} {holds : α → Bool} {l : List α} {k : ℕ}
    (hk : k < l.countP holds) :
    ∃ (p : ℕ) (x : α), l[p]? = some x ∧ holds x ∧ (l.take p).countP holds = k := by
  induction l generalizing k with
  | nil => exact absurd hk (Nat.not_lt_zero k)
  | cons x l ih =>
    by_cases hx : holds x
    · rw [List.countP_cons_of_pos hx] at hk
      cases k with
      | zero => exact ⟨0, x, rfl, hx, rfl⟩
      | succ k =>
        obtain ⟨p, y, listed, hy, count⟩ := ih (Nat.lt_of_succ_lt_succ hk)
        exact ⟨p + 1, y, listed, hy, by rw [List.take_succ_cons, List.countP_cons_of_pos hx, count]⟩
    · rw [List.countP_cons_of_neg hx] at hk
      obtain ⟨p, y, listed, hy, count⟩ := ih hk
      exact ⟨p + 1, y, listed, hy, by rw [List.take_succ_cons, List.countP_cons_of_neg hx, count]⟩

/-- Every number of a constraint is that of an instruction. -/
theorem WellFormed.exists_constraint (h : WellFormed c) {k : ℕ} (hk : k < c.constraintCount) :
    ∃ p i, c.instructions[p]? = some i ∧ c.isConstraint i ∧ c.constraintsBefore p = k := by
  rw [h.count] at hk
  exact exists_countP_take hk

theorem isConstraint_iff {i : Instruction} {b : Blueprint} (h : c.blueprintAt i.blueprint = .ok b) :
    c.isConstraint i ↔ b.kind ≠ .hint := by
  rw [blueprintAt_ok] at h
  simp [isConstraint, h]

/-- An instruction stands for a constraint unless it calls a hint. -/
theorem isConstraint_iff_kind {i : Instruction} {op : Operation}
    (decoded : c.operationOf i = .ok op) : c.isConstraint i ↔ op.kind ≠ .hint := by
  obtain ⟨b, words, parts⟩ := Decoded.of_operationOf decoded
  rw [isConstraint_iff parts.blueprint, parts.read.kind]

/-- The operations of a circuit are of kinds that it allows. -/
theorem WellFormed.allows (h : WellFormed c) {i : Instruction} {op : Operation}
    (mem : i ∈ c.instructions) (decoded : c.operationOf i = .ok op) :
    c.kind.allows op.kind := by
  obtain ⟨b, words, parts⟩ := Decoded.of_operationOf decoded
  obtain ⟨b', found, allowed⟩ := h.blueprint i mem
  obtain rfl := Except.ok.inj (found.symm.trans parts.blueprint)
  rwa [← parts.read.kind]

/-- Only circuits of rank-one constraints have one. -/
theorem WellFormed.r1cs_of_r1c (h : WellFormed c) {i : Instruction} {op : Operation}
    (mem : i ∈ c.instructions) (decoded : c.operationOf i = .ok op) (rankOne : op.kind = .r1c) :
    c.kind = .r1cs := by
  have allowed := h.allows mem decoded
  cases kind : c.kind with
  | r1cs => rfl
  | sparse =>
    rw [kind, rankOne] at allowed
    cases allowed

/-- The number that an instruction carries, if it fits into a word. -/
theorem WellFormed.number_toNat (h : WellFormed c) {p : ℕ} {i : Instruction}
    (found : c.instructions[p]? = some i) (small : c.constraintsBefore p < wordRange) :
    i.constraint.toNat = c.constraintsBefore p := by
  rw [h.number p i found, toNat_word small]

/-! ## Reading -/

variable {α : Type} {read : Blueprint → CallData → Except Blueprint.Error α}

/-- An instruction that stands for a constraint, read as one. -/
def ReadsAs (c : Circuit F) (read : Blueprint → CallData → Except Blueprint.Error α)
    (i : Instruction) (x : α) : Prop :=
  ∃ b words, c.blueprintAt i.blueprint = .ok b ∧ b.kind ≠ .hint ∧ c.callDataOf i = .ok words ∧
    read b words = .ok x

theorem readConstraints_cons {i : Instruction} {rest : List Instruction} {xs : List α}
    (h : c.readConstraints read (i :: rest) = .ok xs) :
    c.isConstraint i = false ∧ c.readConstraints read rest = .ok xs ∨
    ∃ x ys, c.ReadsAs read i x ∧ c.readConstraints read rest = .ok ys ∧ xs = x :: ys := by
  obtain ⟨b, found, h⟩ := except_bind_ok.1 h
  split at h
  · next hint =>
    refine .inl ⟨?_, h⟩
    rw [← Bool.not_eq_true, isConstraint_iff found, not_not]
    exact hint
  · next constraint =>
    obtain ⟨words, hw, h⟩ := except_bind_ok.1 h
    obtain ⟨x, hx, h⟩ := except_bind_ok.1 h
    obtain ⟨ys, hys, h⟩ := except_bind_ok.1 h
    obtain rfl := Except.ok.inj h
    exact .inr ⟨x, ys, ⟨b, words, found, constraint, hw, except_mapError_ok.1 hx⟩, hys, rfl⟩

theorem ReadsAs.isConstraint {i : Instruction} {x : α} (h : c.ReadsAs read i x) :
    c.isConstraint i := by
  obtain ⟨b, words, found, kind, -⟩ := h
  exact (isConstraint_iff found).2 kind

/-- Which instruction each of the constraints that were read comes from, and where each
    instruction's constraint stands. -/
theorem readConstraints_ok {l : List Instruction} {xs : List α}
    (h : c.readConstraints read l = .ok xs) :
    xs.length = l.countP c.isConstraint ∧
      (∀ (p : ℕ) (i : Instruction), l[p]? = some i → c.isConstraint i → ∃ x,
        c.ReadsAs read i x ∧ xs[(l.take p).countP c.isConstraint]? = some x) ∧
      ∀ (k : ℕ) (x : α), xs[k]? = some x → ∃ p i, l[p]? = some i ∧ c.ReadsAs read i x ∧
        (l.take p).countP c.isConstraint = k := by
  induction l generalizing xs with
  | nil =>
    obtain rfl := Except.ok.inj h
    simp
  | cons i l ih =>
    obtain ⟨hint, rest⟩ | ⟨x, ys, reads, rest, rfl⟩ := readConstraints_cons h
    · obtain ⟨length, places, origin⟩ := ih rest
      refine ⟨by simpa [hint] using length, fun p j listed cj => ?_, fun k x listed => ?_⟩
      · cases p with
        | zero =>
          obtain rfl := Option.some.inj listed
          rw [hint] at cj
          cases cj
        | succ p => simpa [hint] using places p j listed cj
      · obtain ⟨p, j, hj, reads, count⟩ := origin k x listed
        exact ⟨p + 1, j, hj, reads, by simpa [hint] using count⟩
    · obtain ⟨length, places, origin⟩ := ih rest
      have ci := reads.isConstraint
      refine ⟨by simpa [ci] using length, fun p j listed cj => ?_, fun k x' listed => ?_⟩
      · cases p with
        | zero =>
          obtain rfl := Option.some.inj listed
          exact ⟨x, reads, rfl⟩
        | succ p => simpa [ci] using places p j listed cj
      · cases k with
        | zero =>
          obtain rfl := Option.some.inj listed
          exact ⟨0, i, rfl, reads, rfl⟩
        | succ k =>
          obtain ⟨p, j, hj, reads, count⟩ := origin k x' listed
          exact ⟨p + 1, j, hj, reads, by simpa [ci] using count⟩

/-- An instruction reads as one constraint only. -/
theorem ReadsAs.unique {i : Instruction} {x y : α} (hx : c.ReadsAs read i x)
    (hy : c.ReadsAs read i y) : x = y := by
  obtain ⟨b, words, found, -, hw, reads⟩ := hx
  obtain ⟨b', words', found', -, hw', reads'⟩ := hy
  obtain rfl := Except.ok.inj (found.symm.trans found')
  obtain rfl := Except.ok.inj (hw.symm.trans hw')
  exact Except.ok.inj (reads.symm.trans reads')

/-- The constraint of an instruction stands in the list at its number. -/
theorem getElem?_of_readsAs {p : ℕ} {i : Instruction} {x : α} {xs : List α}
    (found : c.instructions[p]? = some i) (reads : c.ReadsAs read i x)
    (all : c.readConstraints read c.instructions = .ok xs) :
    xs[c.constraintsBefore p]? = some x := by
  obtain ⟨-, places, -⟩ := readConstraints_ok all
  obtain ⟨y, reads', stands⟩ := places p i found reads.isConstraint
  rw [reads.unique reads']
  exact stands

/-- If every constraint among some instructions can be read, so can their list. -/
theorem exists_readConstraints {l : List Instruction}
    (known : ∀ i ∈ l, ∃ b, c.blueprintAt i.blueprint = .ok b)
    (each : ∀ i ∈ l, c.isConstraint i → ∃ x, c.ReadsAs read i x) :
    ∃ xs, c.readConstraints read l = .ok xs := by
  induction l with
  | nil => exact ⟨[], rfl⟩
  | cons i l ih =>
    obtain ⟨xs, rest⟩ := ih (fun j hj => known j (List.mem_cons_of_mem i hj))
      fun j hj => each j (List.mem_cons_of_mem i hj)
    obtain ⟨b, found⟩ := known i List.mem_cons_self
    by_cases hint : b.kind = .hint
    · refine ⟨xs, ?_⟩
      simp only [readConstraints, found, hint, bind, Except.bind, if_true, rest]
    · obtain ⟨x, b', words, found', -, hw, hx⟩ :=
        each i List.mem_cons_self ((isConstraint_iff found).2 hint)
      obtain rfl : b' = b := Except.ok.inj (found'.symm.trans found)
      refine ⟨x :: xs, ?_⟩
      simp only [readConstraints, found, hint, bind, Except.bind, if_false, hw, hx, rest]
      rfl

theorem WellFormed.exists_readConstraints (h : WellFormed c)
    (each : ∀ i ∈ c.instructions, c.isConstraint i → ∃ x, c.ReadsAs read i x) :
    ∃ xs, c.readConstraints read c.instructions = .ok xs := by
  refine Circuit.exists_readConstraints (fun i hi => ?_) each
  obtain ⟨b, found, -⟩ := h.blueprint i hi
  exact ⟨b, found⟩

/-! ## Operations as constraints -/

theorem readsAs_r1cOf {i : Instruction} {r : R1C} (h : c.operationOf i = .ok (.r1c r)) :
    c.ReadsAs Blueprint.r1cOf i r := by
  obtain ⟨b, words, decoded⟩ := Decoded.of_operationOf h
  obtain ⟨kind, read⟩ := decoded.read
  exact ⟨b, words, decoded.blueprint, by simp [kind], decoded.words, read⟩

theorem readsAs_gateOf {i : Instruction} {g : Gate} :
    c.ReadsAs Blueprint.gateOf i g ↔ c.operationOf i = .ok (.gate g) := by
  constructor
  · rintro ⟨b, words, found, -, hw, read⟩
    obtain ⟨kind, -⟩ := Blueprint.decompressGate_ok.1 (Blueprint.contentAfter_ok.1 read)
    simp only [operationOf, found, hw, bind, Except.bind, kind, read]
    rfl
  · intro h
    obtain ⟨b, words, decoded⟩ := Decoded.of_operationOf h
    obtain ⟨kind, read⟩ := decoded.read
    exact ⟨b, words, decoded.blueprint, by simp [kind], decoded.words, read⟩

/-- The gates of a circuit of gates can be read if its instructions can be decoded. -/
theorem WellFormed.exists_gates (h : WellFormed c) (kind : c.kind = .sparse)
    (decodes : ∀ i ∈ c.instructions, ∃ op, c.operationOf i = .ok op) :
    ∃ gs, c.gates = .ok gs := by
  refine h.exists_readConstraints fun i hi constraint => ?_
  obtain ⟨op, operation⟩ := decodes i hi
  have allowed := h.allows hi operation
  cases op with
  | gate g => exact ⟨g, readsAs_gateOf.2 operation⟩
  | r1c r =>
    rw [kind] at allowed
    cases allowed
  | hint call => exact absurd rfl ((isConstraint_iff_kind operation).1 constraint)

end CircuitWitness.Circuit
