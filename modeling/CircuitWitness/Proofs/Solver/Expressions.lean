import CircuitWitness.Proofs.Circuit.Operations
import CircuitWitness.Proofs.Solver.Hint
import CircuitWitness.Proofs.Solver.RankOne

/-!
# Expressions in a state

In a state each term has a value, if a wire that is not solved counts as zero and a constant term as
its coefficient. The programs that evaluate expressions go through the terms in ways of their own.
They look at constant terms, at the zero entry and at the shortcut ids in different orders, and
where a wire is not solved a hint fails, a constraint notes the term and a description gives up.

A term waits for its wire if its coefficient is not the zero entry, it is not constant and the wire
is not solved. The first term that waits ends the evaluation of an input, and no description is
given. If no term waits, each program comes to the sum of the values. That constant terms are taken
from the coefficients makes no difference as long as the wire of one holds one.

Results:
* `run_addInputTerm`, `run_scanTerm`, `termValue?_eq`: what each program comes to for one term.
* `run_inputValue`, `Prepared.run_scanExpr`, `exprValue?_eq`: and for an expression.
* `run_solveHint`: what a call comes to, up to the setting of its outputs.
* `Prepared.exprOn_eq`: the value is that under every assignment that extends the state.
-/

namespace CircuitWitness.Solver

variable {F : PrimeField} {c : Circuit F} {s s' : State F} {t : Term} {e : LinearExpr}

/-! ## Values in a state -/

/-- The value of a term in a state, where a wire that is not solved counts as zero. A constant term
    counts as its coefficient. -/
def State.termIn (s : State F) (c : Circuit F) (t : Term) : F.Elem :=
  if c.kind.isConstant t then c.coeffOn t.coeff
  else c.coeffOn t.coeff * (s.value? t.wire).getD 0

/-- The value of an expression in a state. -/
def State.exprIn (s : State F) (c : Circuit F) (e : LinearExpr) : F.Elem := (e.map (s.termIn c)).sum

/-- Whether a term waits for its wire. -/
def State.waits (s : State F) (c : Circuit F) (t : Term) : Bool :=
  !t.isZero && !c.kind.isConstant t && (s.value? t.wire).isNone

/-- The first term whose coefficient is not the zero entry and whose wire is not solved. -/
def State.firstUnsolved? (s : State F) (e : LinearExpr) : Option Term :=
  e.find? fun t => !t.isZero && (s.value? t.wire).isNone

theorem State.value?_eq_some {w : WireId} {x : F.Elem} :
    s.value? w = some x ↔ s.values[w.toNat]? = some (some x) := by
  rw [State.value?, Option.join_eq_some_iff]

theorem State.value?_eq_none {w : WireId} (range : w.toNat < s.values.length) :
    s.value? w = none ↔ s.values[w.toNat]? = some none := by
  rw [State.value?, List.getElem?_eq_getElem range]
  cases s.values[w.toNat] <;> simp

/-- If the wires that carry another coefficient than the zero entry are solved, no term waits. -/
theorem State.find?_waits_of_solved (solved : ∀ t ∈ e, t.isZero = false → s.Solved t.wire) :
    e.find? (s.waits c) = none := by
  rw [List.find?_eq_none]
  intro t ht waiting
  simp only [waits, Bool.and_eq_true, Bool.not_eq_true'] at waiting
  obtain ⟨⟨weight, -⟩, unsolved⟩ := waiting
  obtain ⟨x, valueAt⟩ := solved t ht weight
  rw [value?_eq_some.2 valueAt] at unsolved
  cases unsolved

theorem State.termIn_zero (s : State F) (c : Circuit F) (zero : t.isZero) : s.termIn c t = 0 := by
  have entry : t.coeff = CoeffId.zero := by simpa [Term.isZero] using zero
  simp [State.termIn, entry]

/-! ## One term -/

/-- An input term that waits ends the evaluation, another one is added up. -/
theorem run_addInputTerm (hint : HintId) (range : c.HasTerm t)
    (size : s.values.length = c.wireCount) (sum : F.Elem) :
    (addInputTerm c hint sum t).run s =
      if s.waits c t then .error (.fatal (.unsolvedHintInput t.wire hint)) s
      else .ok (sum + s.termIn c t) s := by
  have coeffAt := Circuit.get?_coeffOn range.1
  by_cases zero : t.isZero
  · simp only [addInputTerm, zero, State.waits, s.termIn_zero c zero, add_zero, Bool.not_true,
      Bool.false_and, Bool.false_eq_true, if_true, if_false]
    rfl
  · by_cases constant : c.kind.isConstant t
    · simp only [addInputTerm, State.waits, State.termIn, zero, constant, if_true, Bool.not_true,
        Bool.and_false, Bool.false_and, Bool.false_eq_true, if_false, EStateM.run_bind, run_coeff,
        coeffAt]
      rfl
    · obtain ⟨x, valueAt⟩ | emptyAt :=
        State.solved_or_unsolved (s := s) (w := t.wire) (size ▸ range.2)
      · simp only [addInputTerm, State.waits, State.termIn, zero, constant, Bool.false_eq_true,
          if_false, EStateM.run_bind, run_isSolved, valueAt, Option.isSome_some, Bool.not_true,
          State.value?_eq_some.2 valueAt, Option.isNone_some, Bool.and_false, Option.getD_some,
          run_termValue valueAt coeffAt]
        rfl
      · have unsolved := (State.value?_eq_none (size ▸ range.2)).2 emptyAt
        simp only [addInputTerm, State.waits, zero, constant, Bool.false_eq_true, if_false,
          EStateM.run_bind, run_isSolved, emptyAt, Option.isSome_none, Bool.not_false, if_true,
          unsolved, Option.isNone_none, Bool.and_self]
        rfl

/-- A term of a constraint is summed up if its wire is solved, else noted as the unsolved one. -/
theorem run_scanTerm (constraint : UInt32) (side : Side) (range : c.HasTerm t)
    (size : s.values.length = c.wireCount) (p : Partial F) :
    (scanTerm c constraint side p t).run s =
      match s.value? t.wire with
      | some x => .ok { p with row := p.row.add side (c.coeffOn t.coeff * x) } s
      | none =>
        if p.unknown.isSome then .error (.fatal (.multipleUnsolved constraint)) s
        else .ok { p with unknown := some (side, t) } s := by
  obtain ⟨x, valueAt⟩ | emptyAt := State.solved_or_unsolved (s := s) (w := t.wire) (size ▸ range.2)
  · simp only [scanTerm, EStateM.run_bind, run_isSolved, valueAt, Option.isSome_some, if_true,
      run_termValue valueAt (Circuit.get?_coeffOn range.1), State.value?_eq_some.2 valueAt]
    rfl
  · simp only [scanTerm, EStateM.run_bind, run_isSolved, emptyAt, Option.isSome_none,
      Bool.false_eq_true, if_false, (State.value?_eq_none (size ▸ range.2)).2 emptyAt]
    cases p.unknown <;> rfl

/-- For descriptions a term has a value unless it waits, also where the coefficient is not looked
    up. -/
theorem State.termValue?_eq (range : t.coeff.toNat < c.coeffs.size) :
    s.termValue? c t = if s.waits c t then none else some (s.termIn c t) := by
  have coeffAt := Circuit.get?_coeffOn range
  by_cases constant : c.kind.isConstant t
  · simp only [termValue?, waits, termIn, constant, if_true, coeffAt, Bool.not_true, Bool.and_false,
      Bool.false_and, Bool.false_eq_true, if_false]
  · by_cases zero : t.isZero
    · simp only [termValue?, waits, constant, zero, s.termIn_zero c zero, if_true, Bool.not_true,
        Bool.false_and, Bool.false_eq_true, if_false]
    · cases valueAt : s.value? t.wire with
      | none => simp [termValue?, waits, constant, zero, valueAt]
      | some x =>
        simp only [termValue?, waits, termIn, constant, zero, valueAt, Option.isNone_some,
          Bool.and_false, Bool.false_eq_true, if_false, Option.getD_some, Option.bind_eq_bind,
          Option.bind_some]
        split
        · next one =>
          rw [one, c.coeffOn_one, one_mul]
          rfl
        · split
          · next two =>
            rw [two, c.coeffOn_two, PrimeField.Elem.double_eq]
            rfl
          · split
            · next minusOne =>
              rw [minusOne, c.coeffOn_minusOne, neg_one_mul]
              rfl
            · rw [coeffAt]
              rfl

/-! ## Expressions -/

@[simp] theorem State.exprIn_nil (s : State F) (c : Circuit F) : s.exprIn c [] = 0 := rfl

@[simp] theorem State.exprIn_cons (s : State F) (c : Circuit F) (t : Term) (e : LinearExpr) :
    s.exprIn c (t :: e) = s.termIn c t + s.exprIn c e := by
  simp [exprIn]

theorem State.exprIn_perm (s : State F) (c : Circuit F) {e e' : LinearExpr} (h : e.Perm e') :
    s.exprIn c e = s.exprIn c e' :=
  (h.map _).sum_eq

theorem run_inputTerms (hint : HintId) (range : ∀ t ∈ e, c.HasTerm t)
    (size : s.values.length = c.wireCount) (sum : F.Elem) :
    (e.foldlM (addInputTerm c hint) sum).run s =
      match e.find? (s.waits c) with
      | some t => .error (.fatal (.unsolvedHintInput t.wire hint)) s
      | none => .ok (sum + s.exprIn c e) s := by
  induction e generalizing sum with
  | nil =>
    rw [State.exprIn_nil, add_zero]
    rfl
  | cons t e ih =>
    have here := run_addInputTerm hint (range t List.mem_cons_self) size sum
    rw [List.foldlM_cons, EStateM.run_bind, here, List.find?_cons]
    cases s.waits c t with
    | true => rfl
    | false =>
      have rest := ih (fun t ht => range t (List.mem_cons_of_mem _ ht)) (sum + s.termIn c t)
      rw [State.exprIn_cons, ← add_assoc]
      exact rest

/-- The first term of an input that waits ends its evaluation. -/
theorem run_inputValue (hint : HintId) (range : ∀ t ∈ e, c.HasTerm t)
    (size : s.values.length = c.wireCount) :
    (inputValue c hint e).run s =
      match e.find? (s.waits c) with
      | some t => .error (.fatal (.unsolvedHintInput t.wire hint)) s
      | none => .ok (s.exprIn c e) s := by
  rw [inputValue, run_inputTerms hint range size, zero_add]

theorem run_inputValues (hint : HintId) {es : List LinearExpr}
    (range : ∀ t ∈ es.flatten, c.HasTerm t) (size : s.values.length = c.wireCount) :
    (inputValues c hint es).run s =
      match es.flatten.find? (s.waits c) with
      | some t => .error (.fatal (.unsolvedHintInput t.wire hint)) s
      | none => .ok (es.map (s.exprIn c)) s := by
  induction es with
  | nil => rfl
  | cons e es ih =>
    rw [List.flatten_cons] at range ⊢
    have here := run_inputValue hint (fun t ht => range t (List.mem_append_left _ ht)) size
    have rest := ih fun t ht => range t (List.mem_append_right _ ht)
    rw [inputValues, EStateM.run_bind, here, List.find?_append]
    cases e.find? (s.waits c) with
    | some t => rfl
    | none =>
      simp only [EStateM.run_bind, rest, Option.none_or]
      cases es.flatten.find? (s.waits c) <;> rfl

/-- The function of a hint is called with the values of its inputs, unless a term of them waits. -/
theorem run_solveHint {hints : HintRegistry} {call : HintCall} {hint : NamedHint}
    (known : hints.find? call.hint = some hint) (range : ∀ t ∈ call.terms, c.HasTerm t)
    (size : s.values.length = c.wireCount) :
    (solveHint c hints call).run s =
      match call.terms.find? (s.waits c) with
      | some t => .error (.fatal (.unsolvedHintInput t.wire call.hint)) s
      | none =>
        match hint.function.outputs F.modulus (call.inputs.map fun e => (s.exprIn c e).val)
          call.outputs.length with
        | .error cause => .error (.hint call.hint hint.name cause) s
        | .ok outputs => (assignAll (call.outputs.zip outputs)).run s := by
  have inputs := run_inputValues call.hint range size
  simp only [solveHint, known, EStateM.run_bind, inputs, HintCall.terms]
  cases call.inputs.flatten.find? (s.waits c) with
  | some t => rfl
  | none =>
    simp only [List.map_map]
    change EStateM.run (match hint.function.outputs F.modulus
      (call.inputs.map fun e => (s.exprIn c e).val) call.outputs.length with
      | .error cause => throw (.hint call.hint hint.name cause)
      | .ok outputs => assignAll (call.outputs.zip outputs)) s = _
    cases hint.function.outputs F.modulus (call.inputs.map fun e => (s.exprIn c e).val)
      call.outputs.length <;> rfl

theorem foldlM_termValue? (range : ∀ t ∈ e, t.coeff.toNat < c.coeffs.size) (sum : F.Elem) :
    e.foldlM (fun sum t => (s.termValue? c t).map (sum + ·)) sum =
      match e.find? (s.waits c) with
      | some _ => none
      | none => some (sum + s.exprIn c e) := by
  induction e generalizing sum with
  | nil =>
    rw [State.exprIn_nil, add_zero]
    rfl
  | cons t e ih =>
    rw [List.foldlM_cons, State.termValue?_eq (range t List.mem_cons_self), List.find?_cons]
    cases s.waits c t with
    | true => rfl
    | false =>
      have rest := ih (fun t ht => range t (List.mem_cons_of_mem _ ht)) (sum + s.termIn c t)
      rw [State.exprIn_cons, ← add_assoc]
      exact rest

/-- For descriptions an expression has a value unless one of its terms waits. -/
theorem State.exprValue?_eq (range : ∀ t ∈ e, t.coeff.toNat < c.coeffs.size) :
    s.exprValue? c e =
      match e.find? (s.waits c) with
      | some _ => none
      | none => some (s.exprIn c e) := by
  rw [exprValue?, foldlM_termValue? range, zero_add]

/-! ## States of an attempt -/

/-- A state with a place for each wire, in which the wire of one holds one. -/
structure Prepared (c : Circuit F) (s : State F) : Prop where
  size : s.values.length = c.wireCount
  one : c.kind = .r1cs → s.value? oneWire = some 1

namespace Prepared

/-- A constant term stands on a wire that holds one. -/
theorem value?_of_isConstant (h : Prepared c s) (constant : c.kind.isConstant t) :
    s.value? t.wire = some 1 := by
  obtain ⟨kind, wire⟩ := isConstant_iff.1 constant
  rw [wire, h.one kind]

/-- The value of a term on a solved wire is the product, also if the term is constant. -/
theorem termIn_eq (h : Prepared c s) {x : F.Elem} (solved : s.value? t.wire = some x) :
    s.termIn c t = c.coeffOn t.coeff * x := by
  unfold State.termIn
  split
  · next constant =>
    rw [h.value?_of_isConstant constant] at solved
    obtain rfl := Option.some.inj solved
    rw [mul_one]
  · rw [solved, Option.getD_some]

/-- The terms that wait are those whose coefficient is not the zero entry and whose wire is not
    solved. -/
theorem find?_waits (h : Prepared c s) (e : LinearExpr) :
    e.find? (s.waits c) = s.firstUnsolved? e := by
  have same : s.waits c = fun t => !t.isZero && (s.value? t.wire).isNone := by
    funext t
    unfold State.waits
    cases constant : c.kind.isConstant t with
    | true => rw [h.value?_of_isConstant constant]; simp
    | false => simp
  rw [same, State.firstUnsolved?]

/-- The solved terms of an expression are added to one side of a constraint. -/
theorem run_scanExpr (h : Prepared c s) (constraint : UInt32) (side : Side)
    (range : ∀ t ∈ e, c.HasTerm t) (solved : ∀ t ∈ e, s.Solved t.wire) (p : Partial F) :
    (e.foldlM (scanTerm c constraint side) p).run s =
      .ok { p with row := p.row.add side (s.exprIn c e) } s := by
  induction e generalizing p with
  | nil =>
    rw [State.exprIn_nil, Row.add_zero]
    rfl
  | cons t e ih =>
    obtain ⟨x, valueAt⟩ := solved t List.mem_cons_self
    have value := State.value?_eq_some.2 valueAt
    have here := run_scanTerm constraint side (range t List.mem_cons_self) h.size p
    rw [value] at here
    rw [List.foldlM_cons, EStateM.run_bind, here]
    have rest := ih (fun t ht => range t (List.mem_cons_of_mem _ ht))
      (fun t ht => solved t (List.mem_cons_of_mem _ ht))
      { p with row := p.row.add side (c.coeffOn t.coeff * x) }
    refine rest.trans ?_
    rw [State.exprIn_cons, h.termIn_eq value, Row.add_add]

/-- What an expression comes to, if none of its terms waits, is its value under every assignment
    that extends the state. -/
theorem exprOn_eq (h : Prepared c s) (ready : s.firstUnsolved? e = none) {w : List F.Elem}
    (extension : Extends w s) : c.exprOn w e = s.exprIn c e := by
  rw [Circuit.exprOn, State.exprIn]
  refine congrArg List.sum (List.map_congr_left fun t ht => ?_)
  have notWaiting := List.find?_eq_none.1 ready t ht
  cases zero : t.isZero with
  | true => rw [c.termOn_zero w zero, s.termIn_zero c zero]
  | false =>
    cases value : s.value? t.wire with
    | none => simp [zero, value] at notWaiting
    | some x =>
      rw [h.termIn_eq value, Circuit.termOn,
        wireOn_eq (extension _ _ (State.value?_eq_some.1 value))]

theorem of_fills {W K : Set ℕ} (h : Prepared c s) (fills : Fills W K s s') : Prepared c s' where
  size := fills.values.1.trans h.size
  one kind := State.value?_eq_some.2 (fills.values.keeps (State.value?_eq_some.1 (h.one kind)))

end Prepared

end CircuitWitness.Solver
