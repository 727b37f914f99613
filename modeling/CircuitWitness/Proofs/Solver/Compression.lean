import CircuitWitness.Proofs.Circuit.Operations
import CircuitWitness.Proofs.Solver.ClosedForm
import CircuitWitness.Proofs.Solver.Locality

/-!
# Closed forms and polynomials

A product, a sum or a bit is solved in closed form if both factors are solved, and else as any
other gate. It makes no difference which way is taken: with both factors solved the polynomial in
the output has slope `-1`, so its root is what the closed form computes.

Results:
* `run_checkGate`, `run_checkIfPlain`: a gate over solved wires passes exactly if it holds.
* `run_quadraticIn`: the polynomial of a gate whose other wires are solved.
* `run_solveGate_output`: a gate with output coefficient `-1` sets its output to what the rest
  of the gate adds up to.
* `solveGate_checked`: a gate over solved wires is checked.
* `closedForm_similar`: over solved factors, the closed form of a layout comes to the same as the
  polynomial.
* `solvePackedGate_similar`: both ways come to the same.
-/

namespace CircuitWitness

variable {F : PrimeField}

namespace Solver

variable {c : Circuit F} {s : State F}

/-! ## Gates over solved wires -/

theorem run_termValue_coeffOn {t : Term} {x : F.Elem} (range : t.coeff.toNat < c.coeffs.size)
    (solved : t.isZero = false → s.values[t.wire.toNat]? = some (some x)) :
    (termValue c t).run s = .ok (c.coeffOn t.coeff * x) s := by
  cases zero : t.isZero with
  | true =>
    have zeroCoeff : t.coeff = CoeffId.zero := by simpa [Term.isZero] using zero
    rw [run_termValue_zero c zero, zeroCoeff, Circuit.coeffOn_zero, zero_mul]
  | false => rw [run_termValue (solved zero) (Circuit.get?_coeffOn range)]

/-- What a check of a gate comes to, the words of a failure apart. -/
def checked (c : Circuit F) (constraint : UInt32) (x : F.Elem) : Solve F Unit :=
  if x = 0 then pure () else unsatisfied c constraint (.equal x 0)

variable {g : Gate} {a b o : F.Elem}

/-- The check of a gate over solved wires passes exactly if the gate holds. -/
theorem run_checkGate (coeffs : c.HasCoeffs g) (constraint : UInt32)
    (ha : g.usesA = true → s.values[g.xa.toNat]? = some (some a))
    (hb : g.usesB = true → s.values[g.xb.toNat]? = some (some b))
    (ho : g.usesC = true → s.values[g.xc.toNat]? = some (some o)) :
    ∃ relation : Relation F, (checkGate c constraint g).run s =
      (if c.gateAt g a b o = 0 then pure () else unsatisfied c constraint relation
        : Solve F Unit).run s := by
  have l : (termValue c ⟨g.ql, g.xa⟩).run s = .ok (c.coeffOn g.ql * a) s := by
    refine run_termValue_coeffOn (coeffs _ (by simp [Gate.coeffs])) fun weight => ha ?_
    simp_all [Term.isZero, Gate.usesA]
  have r : (termValue c ⟨g.qr, g.xb⟩).run s = .ok (c.coeffOn g.qr * b) s := by
    refine run_termValue_coeffOn (coeffs _ (by simp [Gate.coeffs])) fun weight => hb ?_
    simp_all [Term.isZero, Gate.usesB]
  have o' : (termValue c ⟨g.qo, g.xc⟩).run s = .ok (c.coeffOn g.qo * o) s := by
    refine run_termValue_coeffOn (coeffs _ (by simp [Gate.coeffs])) fun weight => ho ?_
    simp_all [Term.isZero, Gate.usesC]
  have m₀ : (termValue c ⟨g.qm, g.xa⟩).run s = .ok (c.coeffOn g.qm * a) s := by
    refine run_termValue_coeffOn (coeffs _ (by simp [Gate.coeffs])) fun weight => ha ?_
    simp_all [Term.isZero, Gate.usesA]
  have m₁ : ∃ y, (secondFactor g).run s = .ok y s ∧ c.coeffOn g.qm * y = c.coeffOn g.qm * b := by
    unfold secondFactor
    by_cases zero : g.qm = CoeffId.zero
    · refine ⟨0, by simp [zero], ?_⟩
      rw [zero, Circuit.coeffOn_zero, zero_mul, zero_mul]
    · refine ⟨b, ?_, rfl⟩
      rw [if_neg zero, run_value, hb (by simp [Gate.usesB, zero])]
  obtain ⟨y, m₁, weight⟩ := m₁
  have q : (coeff c g.qc).run s = .ok (c.coeffOn g.qc) s := by
    rw [run_coeff, Circuit.get?_coeffOn (coeffs _ (by simp [Gate.coeffs]))]
  have total : c.coeffOn g.qm * a * y + c.coeffOn g.ql * a + c.coeffOn g.qr * b
      + c.coeffOn g.qo * o + c.coeffOn g.qc = c.gateAt g a b o := by
    rw [Circuit.gateAt]
    linear_combination a * weight
  refine ⟨.gate (c.coeffOn g.ql * a) (c.coeffOn g.qr * b) (c.coeffOn g.qo * o)
    (c.coeffOn g.qm * a) y (c.coeffOn g.qc), ?_⟩
  simp only [checkGate_eq, EStateM.run_bind, l, r, o', m₀, m₁, q, checkSum, total, ne_eq, ite_not]

theorem checkGate_similar (coeffs : c.HasCoeffs g) (constraint : UInt32)
    (ha : g.usesA = true → s.values[g.xa.toNat]? = some (some a))
    (hb : g.usesB = true → s.values[g.xb.toNat]? = some (some b))
    (ho : g.usesC = true → s.values[g.xc.toNat]? = some (some o)) :
    Similar .univ .univ ((checkGate c constraint g).run s)
      ((checked c constraint (c.gateAt g a b o)).run s) := by
  obtain ⟨relation, run⟩ := run_checkGate coeffs constraint ha hb ho
  rw [run, checked]
  split
  · exact .refl _ _ _
  · exact .unsatisfied c constraint _ _ s s

/-- The values known, and zero where there is none. -/
def State.filled (s : State F) : List F.Elem := s.values.map fun x => x.getD 0

theorem State.Solved.value_filled {x : WireId} (h : s.Solved x) :
    s.values[x.toNat]? = some (some (wireOn s.filled x)) := by
  obtain ⟨v, valueAt⟩ := h
  have value : wireOn s.filled x = v := wireOn_eq (extends_filled s _ v valueAt)
  rw [value, valueAt]

/-- A gate over solved wires is refuted exactly if it is checked and does not hold. -/
theorem run_checkIfPlain (coeffs : c.HasCoeffs g) (constraint : UInt32)
    (solved : ∀ x ∈ g.wires, s.Solved x) :
    ∃ relation : Relation F, (checkIfPlain c constraint g).run s =
      (if g.commitment = .plain ∧ c.gateOn s.filled g ≠ 0 then unsatisfied c constraint relation
        else pure () : Solve F Unit).run s := by
  obtain ⟨relation, run⟩ := run_checkGate coeffs constraint
    (fun used => (solved g.xa (Gate.mem_wires.2 (.inl ⟨used, rfl⟩))).value_filled)
    (fun used => (solved g.xb (Gate.mem_wires.2 (.inr (.inl ⟨used, rfl⟩)))).value_filled)
    (fun used => (solved g.xc (Gate.mem_wires.2 (.inr (.inr ⟨used, rfl⟩)))).value_filled)
  refine ⟨relation, ?_⟩
  by_cases plain : g.commitment = .plain
  · simp only [checkIfPlain, plain, if_true, run, Circuit.gateOn, true_and, ne_eq, ite_not]
  · simp only [checkIfPlain, plain, false_and, if_false]

/-- The wires of a list that are not solved can be found if all of them exist. -/
theorem run_unsolvedOf {l : List WireId} (range : ∀ x ∈ l, x.toNat < s.values.length) :
    (unsolvedOf l).run s = .ok (l.filter fun x => s.values[x.toNat]? = some none) s := by
  induction l with
  | nil => rfl
  | cons x l ih =>
    have rest := ih fun y hy => range y (List.mem_cons_of_mem x hy)
    obtain ⟨v, place⟩ | place := State.solved_or_unsolved (range x List.mem_cons_self)
    · simp only [unsolvedOf, EStateM.run_bind, run_isSolved, place, rest, List.filter_cons]
      rfl
    · simp only [unsolvedOf, EStateM.run_bind, run_isSolved, place, rest, List.filter_cons]
      rfl

theorem run_unsolvedOf_nil {l : List WireId} (h : ∀ x ∈ l, s.Solved x) :
    (unsolvedOf l).run s = .ok [] s := by
  have noneEmpty : l.filter (fun x => s.values[x.toNat]? = some none) = [] :=
    List.filter_eq_nil_iff.2 fun x hx => by simpa using (h x hx).ne_unsolved
  rw [run_unsolvedOf fun x hx => (h x hx).lt_length, noneEmpty]

theorem run_unsolvedOf_singleton {l : List WireId} {u : WireId} (nodup : l.Nodup) (hu : u ∈ l)
    (empty : s.values[u.toNat]? = some none) (others : ∀ x ∈ l, x ≠ u → s.Solved x) :
    (unsolvedOf l).run s = .ok [u] s := by
  have range (x : WireId) (hx : x ∈ l) : x.toNat < s.values.length := by
    by_cases same : x = u
    · rw [same]
      exact (List.getElem?_eq_some_iff.1 empty).1
    · exact (others x hx same).lt_length
  have one : l.filter (fun x => s.values[x.toNat]? = some none) = l.filter (· = u) := by
    refine List.filter_congr fun x hx => ?_
    by_cases same : x = u
    · simp [same, empty]
    · simp [same, (others x hx same).ne_unsolved]
  rw [run_unsolvedOf range, one, List.filter_eq, List.count_eq_one_of_mem nodup hu]
  rfl

/-- A plain gate over solved wires is checked. -/
theorem solveGate_checked (coeffs : c.HasCoeffs g) (constraint : UInt32)
    (plain : g.commitment = .plain) (ha : g.usesA = true → s.values[g.xa.toNat]? = some (some a))
    (hb : g.usesB = true → s.values[g.xb.toNat]? = some (some b))
    (ho : g.usesC = true → s.values[g.xc.toNat]? = some (some o)) :
    Similar .univ .univ ((solveGate c constraint g).run s)
      ((checked c constraint (c.gateAt g a b o)).run s) := by
  have solved : ∀ x ∈ g.wires, s.Solved x := by
    intro x hx
    obtain ⟨used, rfl⟩ | ⟨used, rfl⟩ | ⟨used, rfl⟩ := Gate.mem_wires.1 hx
    · exact ⟨a, ha used⟩
    · exact ⟨b, hb used⟩
    · exact ⟨o, ho used⟩
  have check := checkGate_similar coeffs constraint ha hb ho
  have run : (solveGate c constraint g).run s = (checkGate c constraint g).run s := by
    simp only [solveGate, plain, reduceCtorEq, if_false, EStateM.run_bind,
      run_unsolvedOf_nil solved, checkIfPlain, if_true]
  rw [run]
  exact check

/-! ## Gates with an unsolved output -/

/-- An operand: zero if it takes no part, else the unsolved wire `u` or the value `v`. -/
def Affine.ofWire (x : WireId) (used : Bool) (u : WireId) (v : F.Elem) : Affine F :=
  if used then if x = u then ⟨1, 0⟩ else ⟨0, v⟩ else ⟨0, 0⟩

theorem run_operand {x u : WireId} {used : Bool} {v : F.Elem}
    (solved : used = true → x ≠ u → s.values[x.toNat]? = some (some v)) :
    (operand x used u).run s = .ok (.ofWire x used u v) s := by
  unfold operand Affine.ofWire
  cases used with
  | false => rfl
  | true =>
    by_cases same : x = u
    · simp only [Bool.not_true, Bool.false_eq_true, if_false, if_pos same, if_true]
      rfl
    · simp only [Bool.not_true, Bool.false_eq_true, if_false, if_neg same, EStateM.run_bind,
        run_value, solved rfl same, if_true]
      rfl

theorem run_operand_solved {x u : WireId} {used : Bool} {v : F.Elem}
    (solved : s.values[x.toNat]? = some (some v)) (empty : s.values[u.toNat]? = some none) :
    (operand x used u).run s = .ok ⟨0, if used then v else 0⟩ s := by
  have other : x ≠ u := by
    rintro rfl
    rw [solved] at empty
    simp at empty
  rw [run_operand fun _ _ => solved, Affine.ofWire, if_neg other]
  cases used <;> rfl

/-- A gate as a polynomial in its unsolved wire, from its operands. -/
def quadraticOf (c : Circuit F) (g : Gate) (a b o : Affine F) : Quadratic F where
  alpha := c.coeffOn g.qm * a.slope * b.slope
  beta := c.coeffOn g.ql * a.slope + c.coeffOn g.qr * b.slope + c.coeffOn g.qo * o.slope
    + c.coeffOn g.qm * (a.slope * b.constant + a.constant * b.slope)
  gamma := c.coeffOn g.ql * a.constant + c.coeffOn g.qr * b.constant + c.coeffOn g.qo * o.constant
    + c.coeffOn g.qm * a.constant * b.constant + c.coeffOn g.qc

theorem run_gatePolynomial {u : WireId} {a b o : Affine F} (coeffs : c.HasCoeffs g)
    (ha : (operand g.xa g.usesA u).run s = .ok a s)
    (hb : (operand g.xb g.usesB u).run s = .ok b s)
    (ho : (operand g.xc g.usesC u).run s = .ok o s) :
    (gatePolynomial c g u).run s = .ok (quadraticOf c g a b o) s := by
  have table (q : CoeffId) (hq : q ∈ g.coeffs) : (coeff c q).run s = .ok (c.coeffOn q) s := by
    rw [run_coeff, Circuit.get?_coeffOn (coeffs q hq)]
  simp only [gatePolynomial, EStateM.run_bind, ha, hb, ho, table g.ql (by simp [Gate.coeffs]),
    table g.qr (by simp [Gate.coeffs]), table g.qo (by simp [Gate.coeffs]),
    table g.qm (by simp [Gate.coeffs]), table g.qc (by simp [Gate.coeffs]), EStateM.run_pure]
  rfl

/-- A gate as a polynomial in the wire `u`, where the other wires have the values in `w`. -/
def quadraticIn (c : Circuit F) (w : List F.Elem) (u : WireId) (g : Gate) : Quadratic F :=
  quadraticOf c g (.ofWire g.xa g.usesA u (wireOn w g.xa)) (.ofWire g.xb g.usesB u (wireOn w g.xb))
    (.ofWire g.xc g.usesC u (wireOn w g.xc))

theorem run_quadraticIn {u : WireId} (coeffs : c.HasCoeffs g)
    (others : ∀ x ∈ g.wires, x ≠ u → s.Solved x) :
    (gatePolynomial c g u).run s = .ok (quadraticIn c s.filled u g) s :=
  run_gatePolynomial coeffs
    (run_operand fun used other =>
      (others g.xa (Gate.mem_wires.2 (.inl ⟨used, rfl⟩)) other).value_filled)
    (run_operand fun used other =>
      (others g.xb (Gate.mem_wires.2 (.inr (.inl ⟨used, rfl⟩))) other).value_filled)
    (run_operand fun used other =>
      (others g.xc (Gate.mem_wires.2 (.inr (.inr ⟨used, rfl⟩))) other).value_filled)

/-- An operand that takes no part counts as zero, and its coefficient is zero. -/
theorem weighted {q v : F.Elem} {used : Bool} (unused : used = false → q = 0) :
    q * (if used then v else 0) = q * v := by
  cases used with
  | false => rw [unused rfl, zero_mul, zero_mul]
  | true => rfl

/-- A gate with output coefficient `-1` sets its output to what the rest of the gate adds up
    to. -/
theorem run_solveGate_output (hp : F.IsPrime) (coeffs : c.HasCoeffs g) (constraint : UInt32)
    (plain : g.commitment = .plain) (output : g.qo = CoeffId.minusOne)
    (ha : s.values[g.xa.toNat]? = some (some a)) (hb : s.values[g.xb.toNat]? = some (some b))
    (empty : s.values[g.xc.toNat]? = some none) :
    (solveGate c constraint g).run s = (assign g.xc (c.gateAt g a b 0)).run s := by
  have usesC : g.usesC = true := by
    rw [Gate.usesC, output]
    rfl
  have unsolved : (unsolvedOf g.wires).run s = .ok [g.xc] s := by
    refine run_unsolvedOf_singleton g.nodup_wires (Gate.mem_wires.2 (.inr (.inr ⟨usesC, rfl⟩)))
      empty fun x hx other => ?_
    obtain ⟨-, rfl⟩ | ⟨-, rfl⟩ | ⟨-, rfl⟩ := Gate.mem_wires.1 hx
    · exact ⟨a, ha⟩
    · exact ⟨b, hb⟩
    · exact absurd rfl other
  have third : (operand (F := F) g.xc g.usesC g.xc).run s = .ok ⟨1, 0⟩ s := by
    rw [run_operand (v := 0) fun _ other => absurd rfl other, Affine.ofWire, usesC, if_pos rfl,
      if_pos rfl]
  have polynomial : (gatePolynomial c g g.xc).run s = .ok ⟨0, -1, c.gateAt g a b 0⟩ s := by
    have la := weighted (v := a) fun no => (g.coeffOn_of_not_usesA c no).1
    have ma := weighted (v := a) fun no => (g.coeffOn_of_not_usesA c no).2
    have rb := weighted (v := b) fun no => (g.coeffOn_of_not_usesB c no).1
    have mb := weighted (v := b) fun no => (g.coeffOn_of_not_usesB c no).2
    have slope : c.coeffOn g.qo = -1 := by rw [output, Circuit.coeffOn_minusOne]
    rw [run_gatePolynomial coeffs (run_operand_solved ha empty) (run_operand_solved hb empty) third]
    simp only [quadraticOf, EStateM.Result.ok.injEq, Quadratic.mk.injEq, and_true, Circuit.gateAt,
      slope]
    refine ⟨by ring, by ring, ?_⟩
    linear_combination la + rb + (if g.usesB = true then b else 0) * ma + a * mb
  simp only [solveGate, plain, reduceCtorEq, if_false, EStateM.run_bind, unsolved, polynomial,
    ne_eq, not_true_eq_false, PrimeField.Elem.inverse?_neg_one hp]
  rw [show -c.gateAt g a b 0 * -1 = c.gateAt g a b 0 by ring]

/-! ## Both ways -/

theorem assignOrCheck_empty {constraint : UInt32} {x : WireId}
    (empty : s.values[x.toNat]? = some none) (v : F.Elem) :
    ((wireAccess c constraint).assignOrCheck x v).run s = (assign x v).run s := by
  simp only [WireAccess.assignOrCheck, wireAccess, EStateM.run_bind, run_isSolved, empty]
  rfl

theorem assignOrCheck_solved {constraint : UInt32} {x : WireId} {known : F.Elem}
    (solved : s.values[x.toNat]? = some (some known)) (v : F.Elem) :
    Similar .univ .univ (((wireAccess c constraint).assignOrCheck x v).run s)
      ((checked c constraint (v - known)).run s) := by
  simp only [WireAccess.assignOrCheck, wireAccess, EStateM.run_bind, run_isSolved, solved,
    Option.isSome_some, if_true, run_value, checked]
  by_cases same : v = known
  · rw [if_pos same, if_pos (sub_eq_zero.2 same)]
    exact .refl _ _ _
  · rw [if_neg same, if_neg fun h => same (sub_eq_zero.1 h)]
    exact .unsatisfied c constraint _ _ s s

/-- A gate with output coefficient `-1` is decided by what the rest of it adds up to: the output is
    set to that or compared with it. -/
theorem assignOrCheck_similar (hp : F.IsPrime) (coeffs : c.HasCoeffs g) (constraint : UInt32)
    (plain : g.commitment = .plain) (output : g.qo = CoeffId.minusOne)
    (ha : s.values[g.xa.toNat]? = some (some a)) (hb : s.values[g.xb.toNat]? = some (some b))
    (range : g.xc.toNat < s.values.length) {rest : F.Elem}
    (sum : ∀ o, c.gateAt g a b o = rest - o) :
    Similar .univ .univ (((wireAccess c constraint).assignOrCheck g.xc rest).run s)
      ((solveGate c constraint g).run s) := by
  obtain ⟨known, place⟩ | place := State.solved_or_unsolved range
  · refine (assignOrCheck_solved place rest).trans ?_
    rw [← sum]
    exact (solveGate_checked coeffs constraint plain (fun _ => ha) (fun _ => hb)
      (fun _ => place)).symm
  · rw [assignOrCheck_empty place,
      run_solveGate_output hp coeffs constraint plain output ha hb place, sum, sub_zero]
    exact .refl _ _ _

theorem run_solveProduct (constraint : UInt32) (xa xb xc : WireId) {qm : CoeffId}
    (hm : qm.toNat < c.coeffs.size) (ha : s.values[xa.toNat]? = some (some a))
    (hb : s.values[xb.toNat]? = some (some b)) :
    ((wireAccess c constraint).solveProduct qm xa xb xc).run s =
      ((wireAccess c constraint).assignOrCheck xc (c.coeffOn qm * a * b)).run s := by
  simp only [WireAccess.solveProduct, wireAccess_coeff, wireAccess_value, EStateM.run_bind,
    run_coeff, Circuit.get?_coeffOn hm, run_value, ha, hb]

theorem run_solveSum (constraint : UInt32) (xa xb xc : WireId) {ql qr qc : CoeffId}
    (hl : ql.toNat < c.coeffs.size) (hr : qr.toNat < c.coeffs.size) (hc : qc.toNat < c.coeffs.size)
    (ha : s.values[xa.toNat]? = some (some a)) (hb : s.values[xb.toNat]? = some (some b)) :
    ((wireAccess c constraint).solveSum xa xb xc ql qr qc).run s =
      ((wireAccess c constraint).assignOrCheck xc
        (c.coeffOn ql * a + c.coeffOn qr * b + c.coeffOn qc)).run s := by
  simp only [WireAccess.solveSum, wireAccess_coeff, wireAccess_value, EStateM.run_bind, run_coeff,
    Circuit.get?_coeffOn hl, Circuit.get?_coeffOn hr, Circuit.get?_coeffOn hc, run_value, ha, hb]

theorem checkBit_similar (constraint : UInt32) {xa : WireId} {ql qm : CoeffId}
    (hl : ql.toNat < c.coeffs.size) (hm : qm.toNat < c.coeffs.size)
    (ha : s.values[xa.toNat]? = some (some a)) :
    Similar .univ .univ (((wireAccess c constraint).checkBit xa ql qm).run s)
      ((checked c constraint (c.coeffOn ql * a + c.coeffOn qm * a * a)).run s) := by
  simp only [WireAccess.checkBit, wireAccess_coeff, wireAccess_value, EStateM.run_bind, run_coeff,
    Circuit.get?_coeffOn hl, Circuit.get?_coeffOn hm, run_value, ha]
  simp only [wireAccess, checked]
  split
  · exact .refl _ _ _
  · exact .unsatisfied c constraint _ _ s s

/-- A gate over solved factors is the same to its closed form and to the polynomial. -/
theorem closedForm_similar (hp : F.IsPrime) {constraint : UInt32} {layout : Blueprint}
    {words : CallData} (closed : layout.isSolvable) (read : layout.gateOf words = .ok g)
    (coeffs : c.HasCoeffs g) (ha : s.values[g.xa.toNat]? = some (some a))
    (hb : s.values[g.xb.toNat]? = some (some b)) (range : g.xc.toNat < s.values.length) :
    Similar .univ .univ ((layout.solve (wireAccess c constraint) words).run s)
      ((solveGate c constraint g).run s) := by
  obtain ⟨qm, xa, xb, xc, rfl, rfl, rfl⟩ | ⟨xa, xb, xc, ql, qr, qc, rfl, rfl, rfl⟩ |
    ⟨xa, ql, qm, rfl, rfl, rfl⟩ := closedForm_words closed read
  · have hm := coeffs qm (by simp [Gate.coeffs, Gate.product])
    rw [Blueprint.solve, run_solveProduct constraint xa xb xc hm ha hb]
    exact assignOrCheck_similar hp coeffs constraint rfl rfl ha hb range
      (c.gateAt_product qm xa xb xc a b)
  · have hl := coeffs ql (by simp [Gate.coeffs, Gate.sum])
    have hr := coeffs qr (by simp [Gate.coeffs, Gate.sum])
    have hc := coeffs qc (by simp [Gate.coeffs, Gate.sum])
    rw [Blueprint.solve, run_solveSum constraint xa xb xc hl hr hc ha hb]
    exact assignOrCheck_similar hp coeffs constraint rfl rfl ha hb range
      (c.gateAt_sum xa xb xc ql qr qc a b)
  · obtain rfl : a = b := Option.some.inj (Option.some.inj (ha.symm.trans hb))
    have hl := coeffs ql (by simp [Gate.coeffs, Gate.bit])
    have hm := coeffs qm (by simp [Gate.coeffs, Gate.bit])
    refine (checkBit_similar constraint hl hm ha).trans ?_
    rw [← c.gateAt_bit xa ql qm a a a]
    exact (solveGate_checked coeffs constraint rfl (fun _ => ha) (fun _ => hb)
      (fun _ => ha)).symm

/-- Which way a gate is solved makes no difference. -/
theorem solvePackedGate_similar (hp : F.IsPrime) {constraint : UInt32} {b : Blueprint}
    {words : CallData} (read : b.gateOf words = .ok g) (coeffs : c.HasCoeffs g)
    (wires : ∀ x ∈ [g.xa, g.xb, g.xc], x.toNat < s.values.length) :
    Similar .univ .univ ((solvePackedGate c constraint b words g).run s)
      ((solveGate c constraint g).run s) := by
  have generic (ready : Bool) (factors : (factorsSolved g).run s = .ok ready s)
      (no : (b.isSolvable && ready) = false) : Similar .univ .univ
        ((solvePackedGate c constraint b words g).run s) ((solveGate c constraint g).run s) := by
    simp only [solvePackedGate, EStateM.run_bind, factors, no, Bool.false_eq_true, if_false]
    exact .refl _ _ _
  obtain ⟨x, ha⟩ | ha := State.solved_or_unsolved (wires g.xa (by simp))
  · obtain ⟨y, hb⟩ | hb := State.solved_or_unsolved (wires g.xb (by simp))
    · have factors : (factorsSolved (F := F) g).run s = .ok true s := by
        simp only [factorsSolved, EStateM.run_bind, run_isSolved, ha, Option.isSome_some, if_true,
          hb]
      cases closed : b.isSolvable with
      | false => exact generic true factors (by rw [closed]; rfl)
      | true =>
        simp only [solvePackedGate, EStateM.run_bind, factors, closed, Bool.and_true, if_true]
        exact closedForm_similar hp closed read coeffs ha hb (wires g.xc (by simp))
    · refine generic false ?_ (Bool.and_false _)
      simp only [factorsSolved, EStateM.run_bind, run_isSolved, ha, Option.isSome_some, if_true, hb]
      rfl
  · refine generic false ?_ (Bool.and_false _)
    simp only [factorsSolved, EStateM.run_bind, run_isSolved, ha]
    rfl

end Solver

end CircuitWitness
