import CircuitWitness.Proofs.Solver.Expressions

/-!
# Operations under an assignment that satisfies them

An assignment is given beforehand, and the state knows some of its values. An operation that the
assignment satisfies then ends well and finds more of these values and no others, if what is known
determines what is not: a constraint has one unsolved term at most, which has a weight and, if it
stands in a factor of the product, another factor that is not zero; the inputs of a hint are solved
and its outputs are not.

Results:
* `scan_run`: a scan with one unsolved term at most ends well and finds this term.
* `missing?_of_holds`: the missing value is that of the assignment.
* `run_solveR1C_solved`, `run_solveR1C_unknown`: what is done after the scan.
* `solveR1C_run`, `solveHint_run`: the operation ends well and the assignment extends the state.
-/

namespace CircuitWitness

variable {F : PrimeField} {c : Circuit F}

/-- Only the first coefficient of a table is zero. -/
theorem Circuit.coeffOn_ne_zero {q : CoeffId} (range : q.toNat < c.coeffs.size)
    (weight : q ≠ CoeffId.zero) : c.coeffOn q ≠ 0 := by
  intro zero
  have coeffAt := Circuit.get?_coeffOn range
  rw [zero] at coeffAt
  have first : c.coeffs.toList[0]? = some 0 := rfl
  have same : q.toNat = 0 :=
    (List.getElem?_inj range c.coeffs.nodup).1 (coeffAt.trans first.symm)
  exact weight (UInt32.toNat_inj.1 same)

/-- The value of a term follows from those of the others: the term has a weight, and if it stands
    in a factor of the product, the other factor is not zero. -/
structure Circuit.Follows (c : Circuit F) (w : List F.Elem) (r : R1C) (t : Term) : Prop where
  weight : t.isZero = false
  left : t ∈ r.l → c.exprOn w r.r ≠ 0
  right : t ∈ r.r → c.exprOn w r.l ≠ 0

namespace Solver

variable {s s' : State F} {w : List F.Elem}

theorem Extends.withValue (h : Extends w s) {x : WireId} {v : F.Elem}
    (valueAt : w[x.toNat]? = some v) : Extends w (s.withValue x v) := by
  intro i y filled
  simp only [State.withValue, List.getElem?_set] at filled
  split at filled
  · next here =>
    split at filled
    · obtain rfl := Option.some.inj (Option.some.inj filled)
      rw [← here, valueAt]
    · cases filled
  · exact h i y filled

/-! ## Terms -/

/-- The terms of an expression that stand on unsolved wires. -/
def unsolvedTerms (s : State F) (e : LinearExpr) : LinearExpr :=
  e.filter fun t => s.values[t.wire.toNat]? = some none

theorem unsolvedTerms_append (s : State F) (e e' : LinearExpr) :
    unsolvedTerms s (e ++ e') = unsolvedTerms s e ++ unsolvedTerms s e' :=
  List.filter_append ..

/-- One more term is summed up, or is noted as the unsolved one if there is none so far. -/
theorem scanTerm_run (constraint : UInt32) (side : Side) {p : Partial F} {t : Term}
    (range : c.HasTerm t) (size : s.values.length = c.wireCount)
    (few : p.unknown.toList.length + (unsolvedTerms s [t]).length ≤ 1) :
    ∃ p', (scanTerm c constraint side p t).run s = .ok p' s ∧
      p'.unknown.toList = p.unknown.toList ++ (unsolvedTerms s [t]).map (side, ·) := by
  have run := run_scanTerm constraint side range size p
  cases value : s.value? t.wire with
  | some x =>
    rw [value] at run
    exact ⟨_, run, by simp [unsolvedTerms, State.value?_eq_some.1 value]⟩
  | none =>
    have one : unsolvedTerms s [t] = [t] := by
      simp [unsolvedTerms, (State.value?_eq_none (size ▸ range.2)).1 value]
    rw [one, List.length_singleton] at few
    have allSolved : p.unknown = none := by
      cases unknown : p.unknown with
      | none => rfl
      | some u =>
        rw [unknown, Option.toList_some, List.length_singleton] at few
        omega
    rw [value, allSolved] at run
    exact ⟨_, run, by rw [one, allSolved]; rfl⟩

/-- A scan of one side ends well as long as there is one unsolved term at most. -/
theorem scanExpr_run (constraint : UInt32) (side : Side) {e : LinearExpr} {p : Partial F}
    (range : ∀ t ∈ e, c.HasTerm t) (size : s.values.length = c.wireCount)
    (few : p.unknown.toList.length + (unsolvedTerms s e).length ≤ 1) :
    ∃ p', (e.foldlM (scanTerm c constraint side) p).run s = .ok p' s ∧
      p'.unknown.toList = p.unknown.toList ++ (unsolvedTerms s e).map (side, ·) := by
  induction e generalizing p with
  | nil => exact ⟨p, rfl, by simp [unsolvedTerms]⟩
  | cons t e ih =>
    have split : unsolvedTerms s (t :: e) = unsolvedTerms s [t] ++ unsolvedTerms s e :=
      unsolvedTerms_append s [t] e
    rw [split, List.length_append] at few
    obtain ⟨p₁, first, unknown₁⟩ := scanTerm_run constraint side
      (range t List.mem_cons_self) size (p := p) (by omega)
    have few₁ : p₁.unknown.toList.length + (unsolvedTerms s e).length ≤ 1 := by
      rw [unknown₁, List.length_append, List.length_map]
      omega
    obtain ⟨p', rest, unknown'⟩ := ih (fun t' ht' => range t' (List.mem_cons_of_mem t ht')) few₁
    refine ⟨p', ?_, ?_⟩
    · rw [List.foldlM_cons, EStateM.run_bind, first]
      exact rest
    · rw [unknown', unknown₁, split, List.map_append, List.append_assoc]

/-- A scan with one unsolved term at most ends well and finds this term and its side. -/
theorem scan_run (constraint : UInt32) {r : R1C} (range : ∀ t ∈ r.terms, c.HasTerm t)
    (size : s.values.length = c.wireCount) (few : (unsolvedTerms s r.terms).length ≤ 1) :
    ∃ p, (scan c constraint r).run s = .ok p s ∧ p.unknown.toList
      = (unsolvedTerms s r.l).map (.l, ·) ++ (unsolvedTerms s r.r).map (.r, ·)
        ++ (unsolvedTerms s r.o).map (.o, ·) := by
  simp only [R1C.terms, unsolvedTerms_append, List.length_append] at few
  obtain ⟨p₁, left, unknown₁⟩ := scanExpr_run constraint .l
    (fun t ht => range t (by simp [R1C.terms, ht])) size (e := r.l) (p := .blank)
    (by simp only [Partial.blank, Option.toList_none, List.length_nil]; omega)
  have unknown₁ : p₁.unknown.toList = (unsolvedTerms s r.l).map (.l, ·) := unknown₁
  obtain ⟨p₂, right, unknown₂⟩ := scanExpr_run constraint .r
    (fun t ht => range t (by simp [R1C.terms, ht])) size (e := r.r) (p := p₁)
    (by rw [unknown₁, List.length_map]; omega)
  obtain ⟨p, out, unknown⟩ := scanExpr_run constraint .o
    (fun t ht => range t (by simp [R1C.terms, ht])) size (e := r.o) (p := p₂)
    (by rw [unknown₂, unknown₁, List.length_append, List.length_map, List.length_map]; omega)
  refine ⟨p, ?_, by rw [unknown, unknown₂, unknown₁]⟩
  simp only [scan, EStateM.run_bind, left, right]
  exact out

/-! ## Rank-one constraints -/

/-- The missing value is the one for which the product holds, if the other factor is not zero. -/
theorem missing?_of_holds (hp : F.IsPrime) {row : Row F} {side : Side} {x : F.Elem}
    (holds : (row.add side x).Holds) (left : side = .l → row.b ≠ 0)
    (right : side = .r → row.a ≠ 0) :
    row.missing? side = some x := by
  cases side with
  | l =>
    simp only [Row.Holds, Row.add] at holds
    cases inverse : row.b.inverse? with
    | none => exact absurd (PrimeField.Elem.inverse?_eq_none_iff.1 inverse) (left rfl)
    | some i =>
      simp only [Row.missing?, inverse, Option.some.injEq]
      linear_combination (row.a + x) * PrimeField.Elem.mul_of_inverse? hp inverse - i * holds
  | r =>
    simp only [Row.Holds, Row.add] at holds
    cases inverse : row.a.inverse? with
    | none => exact absurd (PrimeField.Elem.inverse?_eq_none_iff.1 inverse) (right rfl)
    | some i =>
      simp only [Row.missing?, inverse, Option.some.injEq]
      linear_combination (row.b + x) * PrimeField.Elem.mul_of_inverse? hp inverse - i * holds
  | o =>
    simp only [Row.Holds, Row.add] at holds
    simp only [Row.missing?, Option.some.injEq]
    linear_combination holds

/-- The wire gets the value for which its term has the given one. -/
theorem wireOfTerm_run (hp : F.IsPrime) {id : CoeffId} {q x y : F.Elem} (weight : id ≠ CoeffId.zero)
    (range : c.coeffs.get? id = some q) (nonzero : q ≠ 0) (value : q * y = x) (s : State F) :
    (wireOfTerm x id q).run s = .ok y s := by
  unfold wireOfTerm
  split
  · next one =>
    rw [one, CoeffTable.get?_one, Option.some.injEq] at range
    rw [← value, ← range, one_mul]
    rfl
  · split
    · next minusOne =>
      rw [minusOne, CoeffTable.get?_minusOne, Option.some.injEq] at range
      rw [← value, ← range, neg_one_mul, neg_neg]
      rfl
    · split
      · next i inverse =>
        have root : x * i = y := by
          rw [← value]
          linear_combination y * PrimeField.Elem.mul_of_inverse? hp inverse
        rw [root]
        rfl
      · next noInverse => exact absurd (PrimeField.Elem.inverse?_eq_none_iff.1 noInverse) nonzero

/-- Once all terms are solved, the row is noted if the constraint holds. -/
theorem run_solveR1C_solved {constraint : UInt32} {r : R1C} {p : Partial F}
    (scanned : (scan c constraint r).run s = .ok p s) (allSolved : p.unknown = none)
    (holds : p.row.Holds) (empty : s.rows[constraint.toNat]? = some none) :
    (solveR1C c constraint r).run s = .ok () (s.withRow constraint p.row) := by
  have product : p.row.a * p.row.b = p.row.c := holds
  simp only [solveR1C, EStateM.run_bind, scanned, allSolved, product, ne_eq, not_true_eq_false,
    if_false, run_record, empty]

/-- Otherwise the unsolved wire gets its value from the missing one, if there is one. -/
theorem run_solveR1C_unknown {constraint : UInt32} {r : R1C} {p : Partial F} {side : Side}
    {t : Term}
    {x y : F.Elem} (scanned : (scan c constraint r).run s = .ok p s)
    (unknown : p.unknown = some (side, t)) (missing : p.row.missing? side = some x)
    (range : c.HasTerm t)
    (wire : (wireOfTerm x t.coeff (c.coeffOn t.coeff)).run s = .ok y s)
    (unsolved : s.values[t.wire.toNat]? = some none)
    (empty : s.rows[constraint.toNat]? = some none) :
    (solveR1C c constraint r).run s
      = .ok () ((s.withValue t.wire y).withRow constraint (p.row.add side x)) := by
  have empty' : (s.withValue t.wire y).rows[constraint.toNat]? = some none := empty
  simp only [solveR1C, EStateM.run_bind, scanned, unknown, missing, run_coeff,
    Circuit.get?_coeffOn range.1, wire, run_assign, unsolved, run_record, empty']

/-- In a constraint that holds, the missing value is that of the unsolved term, if it follows from
    those of the others. -/
theorem missing?_of_scan (hp : F.IsPrime) {constraint : UInt32} {r : R1C} {p : Partial F}
    {side : Side} {t : Term} (scanned : (scan c constraint r).run s = .ok p s)
    (extension : Extends w s) (holds : (c.rowOn w r).Holds) (unknown : p.unknown = some (side, t))
    (place : (side = .l → t ∈ r.l) ∧ (side = .r → t ∈ r.r)) (follow : c.Follows w r t) :
    p.row.missing? side = some (c.termOn w t) := by
  obtain ⟨-, total, -, -⟩ := scan_ok scanned
  have row := total w extension
  simp only [Partial.total, unknown] at row
  refine missing?_of_holds hp (by rwa [row]) (fun left => ?_) (fun right => ?_)
  · subst left
    have factor : p.row.b = c.exprOn w r.r := congrArg Row.b row
    rw [factor]
    exact follow.left (place.1 rfl)
  · subst right
    have factor : p.row.a = c.exprOn w r.l := congrArg Row.a row
    rw [factor]
    exact follow.right (place.2 rfl)

/-- A constraint that holds under an assignment ends well, and finds the value of its unsolved term
    if it has one. -/
theorem solveR1C_run (hp : F.IsPrime) {constraint : UInt32} {r : R1C}
    (range : ∀ t ∈ r.terms, c.HasTerm t) (size : s.values.length = c.wireCount)
    (length : w.length = c.wireCount) (extension : Extends w s) (holds : (c.rowOn w r).Holds)
    (few : (unsolvedTerms s r.terms).length ≤ 1)
    (follows : ∀ t ∈ unsolvedTerms s r.terms, c.Follows w r t)
    (empty : s.rows[constraint.toNat]? = some none) :
    ∃ s', (solveR1C c constraint r).run s = .ok () s' ∧ Extends w s' := by
  obtain ⟨p, scanned, unknown⟩ := scan_run constraint range size few
  obtain ⟨-, total, -, origin⟩ := scan_ok scanned
  cases found : p.unknown with
  | none =>
    have row := total w extension
    simp only [Partial.total, found] at row
    rw [← row] at holds
    exact ⟨_, run_solveR1C_solved scanned found holds empty, extension⟩
  | some u =>
    obtain ⟨side, t⟩ := u
    obtain ⟨mem, unsolved⟩ := origin _ found
    have follow : c.Follows w r t := follows t (List.mem_filter.2 ⟨mem, by simpa using unsolved⟩)
    -- The term stands in the expression in which it was found.
    have unsolvedSide : (side, t) ∈ (unsolvedTerms s r.l).map (Side.l, ·)
        ++ (unsolvedTerms s r.r).map (Side.r, ·) ++ (unsolvedTerms s r.o).map (Side.o, ·) := by
      rw [← unknown, found]
      exact List.mem_singleton_self _
    have place : (side = .l → t ∈ r.l) ∧ (side = .r → t ∈ r.r) := by
      constructor
      · rintro rfl
        simpa [unsolvedTerms, unsolved] using unsolvedSide
      · rintro rfl
        simpa [unsolvedTerms, unsolved] using unsolvedSide
    have missing := missing?_of_scan hp scanned extension holds found place follow
    have weight : t.coeff ≠ CoeffId.zero := by simpa [Term.isZero] using follow.weight
    have inRange := range t mem
    have wire := wireOfTerm_run hp weight (Circuit.get?_coeffOn inRange.1)
      (Circuit.coeffOn_ne_zero inRange.1 weight)
      (show c.coeffOn t.coeff * wireOn w t.wire = c.termOn w t from rfl) s
    have valueAt : w[t.wire.toNat]? = some (wireOn w t.wire) := by
      have bound : t.wire.toNat < w.length := by rw [length]; exact inRange.2
      simp [wireOn, bound]
    exact ⟨_, run_solveR1C_unknown scanned found missing inRange wire unsolved empty,
      extension.withValue valueAt⟩

/-! ## Hints -/

/-- The inputs of a call are evaluated if all their terms with a weight are solved. -/
theorem inputValues_run (hint : HintId) {es : List LinearExpr}
    (range : ∀ t ∈ es.flatten, c.HasTerm t) (size : s.values.length = c.wireCount)
    (solved : ∀ t ∈ es.flatten, t.isZero = false → s.Solved t.wire) :
    (inputValues c hint es).run s = .ok (es.map (s.exprIn c)) s := by
  rw [run_inputValues hint range size, State.find?_waits_of_solved solved]

/-- Unsolved wires are set if each of them is listed once, and to the values of an assignment if
    these are what is given. -/
theorem assignAll_run {outputs : List WireId} (ns : List Nat)
    (unsolved : ∀ x ∈ outputs, s.values[x.toNat]? = some none) (once : outputs.Nodup) :
    ∃ s', (assignAll (F := F) (outputs.zip ns)).run s = .ok () s' ∧
      ∀ w, Extends w s → outputs.map (fun x => w[x.toNat]?) = ns.map (fun n => some (.ofNat n)) →
        Extends w s' := by
  induction outputs generalizing ns s with
  | nil => exact ⟨s, rfl, fun w extension _ => extension⟩
  | cons x outputs ih =>
    cases ns with
    | nil => exact ⟨s, rfl, fun w extension _ => extension⟩
    | cons n ns =>
      obtain ⟨absent, once⟩ := List.nodup_cons.1 once
      have others : ∀ y ∈ outputs, (s.withValue x (.ofNat n)).values[y.toNat]? = some none := by
        intro y hy
        rw [State.withValue, List.getElem?_set_ne (toNat_ne_of_notMem hy absent).symm]
        exact unsolved y (List.mem_cons_of_mem x hy)
      obtain ⟨s', run, extension'⟩ := ih ns others once
      refine ⟨s', ?_, fun w extension given => ?_⟩
      · simp only [List.zip_cons_cons, assignAll, EStateM.run_bind, run_assign,
          unsolved x List.mem_cons_self]
        exact run
      · rw [List.map_cons, List.map_cons] at given
        obtain ⟨first, rest⟩ := List.cons.inj given
        exact extension' w (extension.withValue first) rest

/-- A call that an assignment respects ends well, and finds the values of its outputs. -/
theorem solveHint_run {hints : HintRegistry} {call : HintCall} (extension : Extends w s)
    (one : OneHolds c w) (holds : c.HintHolds hints w call) (range : ∀ t ∈ call.terms, c.HasTerm t)
    (size : s.values.length = c.wireCount)
    (solved : ∀ t ∈ call.terms, t.isZero = false → s.Solved t.wire)
    (unsolved : ∀ x ∈ call.outputs, s.values[x.toNat]? = some none) (once : call.outputs.Nodup) :
    ∃ s', (solveHint c hints call).run s = .ok () s' ∧ Extends w s' := by
  obtain ⟨hint, outputs, found, called, given⟩ := holds
  have inputs := inputValues_run call.hint range size solved
  obtain ⟨-, values⟩ := inputValues_ok inputs
  rw [values w extension one] at inputs
  obtain ⟨s', run, extension'⟩ := assignAll_run outputs unsolved once
  refine ⟨s', ?_, extension' w extension given⟩
  have called' : hint.function.outputs F.modulus
      ((call.inputs.map (c.exprOn w)).map PrimeField.Elem.val) call.outputs.length
        = .ok outputs := by
    rw [List.map_map]
    exact called
  simp only [solveHint, found, EStateM.run_bind, inputs, called']
  exact run

end Solver

end CircuitWitness
