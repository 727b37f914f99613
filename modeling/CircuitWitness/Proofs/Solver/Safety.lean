import CircuitWitness.Proofs.Solver.AppendOrder
import CircuitWitness.Proofs.Solver.Confluence

/-!
# Circuits that were checked

The checks of reading look at each instruction before anything is solved: at its blueprint, its
words, and the ids of the coefficients and wires that take part in it. The solver looks at more:
before it takes a gate as a polynomial it asks whether both factors are solved, also where a factor
has no weight and was not checked. Apart from the wires of such factors it never meets an id, a
blueprint or words that do not exist.

Results:
* `Safe.bind`: programs whose parts meet no fault meet none.
* `solveInstruction_safe`: what an instruction of a checked circuit can fail with.
* `Waiting.step`, `tasksRun_safe`: so can the tasks of a level, in whatever order they run.
* `solve_safe`: so can an attempt to solve a circuit that was read.
-/

namespace CircuitWitness

variable {F : PrimeField}

/-- A fault in the form of a circuit: it refers to something that does not exist, or has words that
    cannot be read. -/
def Solver.FatalError.IsStructural : Solver.FatalError → Prop
  | .wireOutOfRange _ _ | .coeffOutOfRange _ | .unknownBlueprint _ | .unsupportedBlueprint _ _
  | .blueprint _ | .malformed _ _ => True
  | .wireSolvedTwice _ | .multipleUnsolved _ | .divisionByZeroCoeff | .unsolvedHintInput _ _
  | .unsolvedWire _ | .incomplete _ _ => False

namespace Circuit

/-- A wire that does not exist and is a factor of a gate in which it takes no part. -/
def IsIdleFactor (c : Circuit F) (x : WireId) : Prop :=
  c.wireCount ≤ x.toNat ∧ ∃ p g, c.operationAt p = some (.gate g) ∧ (x = g.xa ∨ x = g.xb) ∧
    x ∉ g.wires

/-- An error with which solving a checked circuit may end: if it is a structural fault, it is met at
    a factor of a gate that takes no part in it. -/
def MayFail (c : Circuit F) (e : Solver.Error F) : Prop :=
  ∀ fault : Solver.FatalError, e = .fatal fault → fault.IsStructural →
    ∃ x, fault = .wireOutOfRange x c.wireCount ∧ c.IsIdleFactor x

theorem mayFail_of_not_structural {c : Circuit F} {fault : Solver.FatalError}
    (h : ¬ fault.IsStructural) : c.MayFail (.fatal fault) := by
  intro fault' same structural
  obtain rfl := Solver.Error.fatal.inj same
  exact absurd structural h

theorem mayFail_of_not_fatal {c : Circuit F} {e : Solver.Error F} (h : e.isFatal = false) :
    c.MayFail e := by
  rintro fault rfl
  cases h

end Circuit

namespace Solver

variable {c : Circuit F} {s s' : State F} {α β : Type} {K : Set ℕ}

/-! ## Programs -/

/-- A program that fails with no other errors, if the state has a place for each wire and the rows
    in `K` are empty. -/
def Safe (c : Circuit F) (K : Set ℕ) (x : Solve F α) : Prop :=
  ∀ s s' e, s.values.length = c.wireCount → (∀ k ∈ K, s.rows[k]? = some none) →
    x.run s = .error e s' → c.MayFail e

theorem Safe.pure (a : α) : Safe c K (pure a : Solve F α) := by
  intro _ _ _ _ _ failed
  cases failed

theorem Safe.throw {e : Error F} (h : c.MayFail e) : Safe c K (throw e : Solve F α) := by
  intro s s' e' _ _ failed
  obtain ⟨rfl, -⟩ := EStateM.Result.error.inj failed
  exact h

theorem Safe.fail {fault : FatalError} (h : ¬ fault.IsStructural) :
    Safe c K (fail fault : Solve F α) :=
  .throw (Circuit.mayFail_of_not_structural h)

theorem Safe.unsatisfied (constraint : UInt32) (relation : Relation F) :
    Safe c K (unsatisfied c constraint relation : Solve F α) := by
  intro s s' e _ _ failed
  obtain ⟨rfl, -⟩ := EStateM.Result.error.inj failed
  exact Circuit.mayFail_of_not_fatal rfl

theorem Safe.bind_of_ok {x : Solve F α} {f : α → Solve F β} (hx : Safe c K x)
    (writes : Writes .univ ∅ x) (hf : ∀ a s s', s.values.length = c.wireCount →
      x.run s = .ok a s' → Safe c K (f a)) : Safe c K (x >>= f) := by
  intro s s' e size rows failed
  obtain first | ⟨a, s₁, first, rest⟩ := bind_error.1 failed
  · exact hx s s' e size rows first
  · have fills := writes.ok first
    refine hf a s s₁ size first s₁ s' e (by rw [fills.values.1, size]) (fun k hk => ?_) rest
    rw [fills.rows.outside (Set.notMem_empty k)]
    exact rows k hk

theorem Safe.bind {x : Solve F α} {f : α → Solve F β} (hx : Safe c K x)
    (writes : Writes .univ ∅ x) (hf : ∀ a, Safe c K (f a)) : Safe c K (x >>= f) :=
  hx.bind_of_ok writes fun a _ _ _ _ => hf a

theorem Safe.foldlM {f : β → α → Solve F β} {l : List α} (hf : ∀ b, ∀ a ∈ l, Safe c K (f b a))
    (writes : ∀ b a, Writes .univ ∅ (f b a)) (b : β) : Safe c K (l.foldlM f b) := by
  induction l generalizing b with
  | nil => exact .pure b
  | cons a l ih =>
    rw [List.foldlM_cons]
    exact (hf b a List.mem_cons_self).bind (writes b a) fun b' =>
      ih (fun b a mem => hf b a (List.mem_cons_of_mem _ mem)) b'

/-! ## Reads and writes of the state -/

theorem Safe.isSolved {x : WireId} (range : x.toNat < c.wireCount) : Safe c K (isSolved x) := by
  intro s s' e size _ failed
  rw [← size] at range
  rw [run_isSolved, List.getElem?_eq_getElem range] at failed
  cases failed

theorem Safe.value {x : WireId} (range : x.toNat < c.wireCount) : Safe c K (value x) := by
  intro s s' e size _ failed
  rw [← size] at range
  rw [run_value, List.getElem?_eq_getElem range] at failed
  split at failed
  · cases failed
  · obtain ⟨rfl, -⟩ := EStateM.Result.error.inj failed
    exact Circuit.mayFail_of_not_structural id
  · next absent => cases absent

theorem Safe.assign {x : WireId} (range : x.toNat < c.wireCount) (v : F.Elem) :
    Safe c K (assign x v) := by
  intro s s' e size _ failed
  rw [← size] at range
  rw [run_assign, List.getElem?_eq_getElem range] at failed
  split at failed
  · cases failed
  · obtain ⟨rfl, -⟩ := EStateM.Result.error.inj failed
    exact Circuit.mayFail_of_not_structural id
  · next absent => cases absent

theorem Safe.coeff {q : CoeffId} (range : q.toNat < c.coeffs.size) : Safe c K (coeff c q) := by
  intro s s' e _ _ failed
  rw [run_coeff, Circuit.get?_coeffOn range] at failed
  cases failed

theorem Safe.record {constraint : UInt32} (mem : constraint.toNat ∈ K) (row : Row F) :
    Safe c K (record constraint row) := by
  intro s s' e _ rows failed
  rw [run_record, rows _ mem] at failed
  cases failed

/-- The wire of a term is looked at only if the term has a weight. -/
theorem Safe.termValue {t : Term} (coeffRange : t.coeff.toNat < c.coeffs.size)
    (wire : t.isZero = false → t.wire.toNat < c.wireCount) : Safe c K (termValue c t) := by
  unfold Solver.termValue
  split
  · exact .pure _
  · next weight =>
    refine (Safe.value (wire (by simpa using weight))).bind (.value _) fun x => ?_
    split
    · exact .pure _
    · split
      · exact .pure _
      · split
        · exact .pure _
        · exact (Safe.coeff coeffRange).bind (.coeff c _) fun q => .pure _

/-! ## Rank-one constraints -/

theorem Safe.scanTerm {constraint : UInt32} {side : Side} {t : Term} (range : c.HasTerm t)
    (p : Partial F) : Safe c K (scanTerm c constraint side p t) := by
  refine (Safe.isSolved range.2).bind (.isSolved _) fun solved => ?_
  split
  · exact (Safe.termValue range.1 fun _ => range.2).bind (.termValue c t) fun x => .pure _
  · split
    · exact (Safe.fail id).bind (.fail _) fun _ => .pure _
    · exact .pure _

theorem Safe.scan {constraint : UInt32} {r : R1C} (range : ∀ t ∈ r.terms, c.HasTerm t) :
    Safe c K (scan c constraint r) := by
  have scanSafe (side : Side) {e : LinearExpr} (sub : ∀ t ∈ e, t ∈ r.terms) (p : Partial F) :
      Safe c K (e.foldlM (Solver.scanTerm c constraint side) p) :=
    .foldlM (fun p t mem => .scanTerm (range t (sub t mem)) p) (.scanTerm c constraint side) p
  have writes (side : Side) (e : LinearExpr) (p : Partial F) :
      Writes .univ ∅ (e.foldlM (Solver.scanTerm c constraint side) p) :=
    .foldlM (.scanTerm c constraint side) e p
  exact (scanSafe .l (fun t ht => by simp [R1C.terms, ht]) _).bind (writes _ _ _) fun p =>
    (scanSafe .r (fun t ht => by simp [R1C.terms, ht]) _).bind (writes _ _ _) fun p =>
    scanSafe .o (fun t ht => by simp [R1C.terms, ht]) p

theorem Safe.wireOfTerm (x : F.Elem) (i : CoeffId) (q : F.Elem) :
    Safe c K (wireOfTerm x i q) := by
  unfold Solver.wireOfTerm
  split
  · exact .pure _
  · split
    · exact .pure _
    · split
      · exact .fail id
      · split
        · exact .pure _
        · exact .fail id

theorem Safe.solveR1C {constraint : UInt32} {r : R1C} (range : ∀ t ∈ r.terms, c.HasTerm t)
    (mem : constraint.toNat ∈ K) : Safe c K (solveR1C c constraint r) := by
  refine (Safe.scan range).bind_of_ok (.scan c constraint r) fun p s s' _ scanned => ?_
  obtain ⟨-, -, -, origin⟩ := scan_ok scanned
  split
  · dsimp only
    split
    · exact (Safe.unsatisfied _ _).bind (.unsatisfied c _ _) fun _ => .record mem _
    · exact .record mem _
  · next side t unknown =>
    have inRange := range t (origin _ unknown).1
    dsimp only
    split
    · exact .unsatisfied _ _
    · exact (Safe.coeff inRange.1).bind (.coeff c _) fun q =>
        (Safe.wireOfTerm _ _ _).bind (.wireOfTerm _ _ _) fun y =>
        (Safe.assign inRange.2 y).bind (.assign (Set.mem_univ _) y) fun _ => .record mem _

/-! ## Hints -/

theorem Safe.addInputTerm {hint : HintId} {t : Term} (range : c.HasTerm t) (sum : F.Elem) :
    Safe c K (addInputTerm c hint sum t) := by
  unfold Solver.addInputTerm
  split
  · exact .pure _
  · split
    · exact (Safe.coeff range.1).bind (.coeff c _) fun q => .pure _
    · refine (Safe.isSolved range.2).bind (.isSolved _) fun solved => ?_
      dsimp only
      split
      · exact (Safe.fail id).bind (.fail _) fun _ =>
          (Safe.termValue range.1 fun _ => range.2).bind (.termValue c t) fun x => .pure _
      · exact (Safe.termValue range.1 fun _ => range.2).bind (.termValue c t) fun x => .pure _

theorem Safe.inputValues {hint : HintId} {es : List LinearExpr}
    (range : ∀ t ∈ es.flatten, c.HasTerm t) : Safe c K (inputValues c hint es) := by
  induction es with
  | nil => exact .pure _
  | cons e es ih =>
    rw [List.flatten_cons] at range
    have first : Safe c K (inputValue c hint e) :=
      .foldlM (fun sum t mem => .addInputTerm (range t (List.mem_append_left _ mem)) sum)
        (.addInputTerm c hint) 0
    exact first.bind (.foldlM (.addInputTerm c hint) e 0) fun x =>
      (ih fun t mem => range t (List.mem_append_right _ mem)).bind (.inputValues c hint es)
        fun xs => .pure _

theorem Safe.assignAll {l : List (WireId × Nat)} (range : ∀ e ∈ l, e.1.toNat < c.wireCount) :
    Safe c K (assignAll (F := F) l) := by
  induction l with
  | nil => exact .pure _
  | cons e l ih =>
    exact (Safe.assign (range e List.mem_cons_self) _).bind (.assign (Set.mem_univ _) _) fun _ =>
      ih fun e' mem => range e' (List.mem_cons_of_mem e mem)

theorem Safe.solveHint (hints : HintRegistry) {call : HintCall}
    (terms : ∀ t ∈ call.terms, c.HasTerm t) (outputs : ∀ x ∈ call.outputs, x.toNat < c.wireCount) :
    Safe c K (solveHint c hints call) := by
  unfold Solver.solveHint
  split
  · exact .throw (Circuit.mayFail_of_not_fatal rfl)
  · refine (Safe.inputValues terms).bind (.inputValues c _ _) fun inputs => ?_
    dsimp only
    split
    · exact .throw (Circuit.mayFail_of_not_fatal rfl)
    · exact .assignAll fun e mem => outputs _ (List.of_mem_zip (show (e.1, e.2) ∈ _ from mem)).1

/-! ## Gates -/

theorem Safe.secondFactor {g : Gate} (h : c.HasGate g) : Safe c K (secondFactor g) := by
  unfold Solver.secondFactor
  split
  · exact .pure _
  · next weight =>
    refine .value (h.wires _ (Gate.mem_wires.2 (.inr (.inl ⟨?_, rfl⟩))))
    simp [Gate.usesB, weight]

theorem Safe.checkGate (constraint : UInt32) {g : Gate} (h : c.HasGate g) :
    Safe c K (checkGate c constraint g) := by
  have coeffs := h.coeffs
  simp only [Circuit.HasCoeffs, Gate.coeffs, List.mem_cons, List.not_mem_nil, or_false,
    forall_eq_or_imp, forall_eq] at coeffs
  obtain ⟨ql, qr, qo, qm, qc⟩ := coeffs
  -- An operand is looked at only if it takes part.
  have left (weight : Term.isZero ⟨g.ql, g.xa⟩ = false) : g.xa.toNat < c.wireCount :=
    h.wires _ (Gate.mem_wires.2 (.inl ⟨by simp_all [Gate.usesA, Term.isZero], rfl⟩))
  have right (weight : Term.isZero ⟨g.qr, g.xb⟩ = false) : g.xb.toNat < c.wireCount :=
    h.wires _ (Gate.mem_wires.2 (.inr (.inl ⟨by simp_all [Gate.usesB, Term.isZero], rfl⟩)))
  have out (weight : Term.isZero ⟨g.qo, g.xc⟩ = false) : g.xc.toNat < c.wireCount :=
    h.wires _ (Gate.mem_wires.2 (.inr (.inr ⟨by simp_all [Gate.usesC, Term.isZero], rfl⟩)))
  have factor (weight : Term.isZero ⟨g.qm, g.xa⟩ = false) : g.xa.toNat < c.wireCount :=
    h.wires _ (Gate.mem_wires.2 (.inl ⟨by simp_all [Gate.usesA, Term.isZero], rfl⟩))
  rw [checkGate_eq]
  refine (Safe.termValue ql left).bind (.termValue c _) fun _ =>
    (Safe.termValue qr right).bind (.termValue c _) fun _ =>
    (Safe.termValue qo out).bind (.termValue c _) fun _ =>
    (Safe.termValue qm factor).bind (.termValue c _) fun _ =>
    (Safe.secondFactor h).bind (.secondFactor g) fun _ =>
    (Safe.coeff qc).bind (.coeff c _) fun _ => ?_
  unfold Solver.checkSum
  split
  · exact .unsatisfied _ _
  · exact .pure _

theorem Safe.checkIfPlain (constraint : UInt32) {g : Gate} (h : c.HasGate g) :
    Safe c K (checkIfPlain c constraint g) := by
  unfold Solver.checkIfPlain
  split
  · exact .checkGate constraint h
  · exact .pure _

theorem Safe.unsolvedOf {l : List WireId} (range : ∀ x ∈ l, x.toNat < c.wireCount) :
    Safe c K (unsolvedOf l) := by
  induction l with
  | nil => exact .pure _
  | cons x l ih =>
    exact (Safe.isSolved (range x List.mem_cons_self)).bind (.isSolved _) fun _ =>
      (ih fun y mem => range y (List.mem_cons_of_mem x mem)).bind (.unsolvedOf l) fun _ => .pure _

theorem Safe.operand {x : WireId} {used : Bool} (range : used = true → x.toNat < c.wireCount)
    (u : WireId) : Safe c K (operand x used u) := by
  unfold Solver.operand
  split
  · exact .pure _
  · next takesPart =>
    split
    · exact .pure _
    · exact (Safe.value (range (by simpa using takesPart))).bind (.value _) fun _ => .pure _

theorem Safe.gatePolynomial {g : Gate} (h : c.HasGate g) (u : WireId) :
    Safe c K (gatePolynomial c g u) := by
  have coeffs := h.coeffs
  simp only [Circuit.HasCoeffs, Gate.coeffs, List.mem_cons, List.not_mem_nil, or_false,
    forall_eq_or_imp, forall_eq] at coeffs
  obtain ⟨ql, qr, qo, qm, qc⟩ := coeffs
  have a (used : g.usesA = true) := h.wires g.xa (Gate.mem_wires.2 (.inl ⟨used, rfl⟩))
  have b (used : g.usesB = true) := h.wires g.xb (Gate.mem_wires.2 (.inr (.inl ⟨used, rfl⟩)))
  have o (used : g.usesC = true) := h.wires g.xc (Gate.mem_wires.2 (.inr (.inr ⟨used, rfl⟩)))
  exact (Safe.operand a u).bind (.operand _ _ u) fun _ =>
    (Safe.operand b u).bind (.operand _ _ u) fun _ =>
    (Safe.operand o u).bind (.operand _ _ u) fun _ => (Safe.coeff ql).bind (.coeff c _) fun _ =>
    (Safe.coeff qr).bind (.coeff c _) fun _ => (Safe.coeff qo).bind (.coeff c _) fun _ =>
    (Safe.coeff qm).bind (.coeff c _) fun _ => (Safe.coeff qc).bind (.coeff c _) fun _ => .pure _

theorem Safe.solveGate (constraint : UInt32) {g : Gate} (h : c.HasGate g) :
    Safe c K (solveGate c constraint g) := by
  unfold Solver.solveGate
  split
  · exact .pure _
  · refine (Safe.unsolvedOf h.wires).bind_of_ok (.unsolvedOf _) fun us s s' _ found => ?_
    obtain ⟨-, -, origin⟩ := unsolvedOf_ok found
    split
    · exact .checkIfPlain constraint h
    · next u =>
      have range := h.wires u (origin u (by simp)).1
      refine (Safe.gatePolynomial h u).bind (.gatePolynomial c g u) fun p => ?_
      dsimp only
      split
      · rw [fail_bind]
        exact .fail id
      · split
        · exact .assign range _
        · exact (Safe.assign range _).bind (.assign (Set.mem_univ _) _) fun _ =>
            .checkIfPlain constraint h
    · exact .fail id

/-! ## Gates in closed form -/

theorem Safe.checkEqual (constraint : UInt32) (x y : F.Elem) :
    Safe c K ((wireAccess c constraint).checkEqual x y) := by
  unfold wireAccess
  dsimp only
  split
  · exact .pure _
  · exact .unsatisfied _ _

theorem Safe.assignOrCheck (constraint : UInt32) {x : WireId} (range : x.toNat < c.wireCount)
    (v : F.Elem) : Safe c K ((wireAccess c constraint).assignOrCheck x v) := by
  refine (Safe.isSolved range).bind (.isSolved x) fun solved => ?_
  split
  · exact (Safe.value range).bind (.value x) fun known => .checkEqual constraint v known
  · exact .assign range v

/-- The three shapes read both factors, whether they take part or not. -/
theorem Safe.closedForm (constraint : UInt32) {b : Blueprint} {words : CallData} {g : Gate}
    (closed : b.isSolvable) (read : b.gateOf words = .ok g) (h : c.HasGate g)
    (left : g.xa.toNat < c.wireCount) (right : g.xb.toNat < c.wireCount) :
    Safe c K (b.solve (wireAccess c constraint) words) := by
  have coeffs := h.coeffs
  simp only [Circuit.HasCoeffs, Gate.coeffs, List.mem_cons, List.not_mem_nil, or_false,
    forall_eq_or_imp, forall_eq] at coeffs
  obtain ⟨hl, hr, -, hm, hc⟩ := coeffs
  obtain ⟨qm, xa, xb, xc, rfl, rfl, rfl⟩ | ⟨xa, xb, xc, ql, qr, qc, rfl, rfl, rfl⟩ |
    ⟨xa, ql, qm, rfl, rfl, rfl⟩ := closedForm_words closed read
  · have output := h.wires xc (Gate.mem_wires.2 (.inr (.inr ⟨rfl, rfl⟩)))
    exact (Safe.coeff hm).bind (.coeff c _) fun _ => (Safe.value left).bind (.value _) fun _ =>
      (Safe.value right).bind (.value _) fun _ => .assignOrCheck constraint output _
  · have output := h.wires xc (Gate.mem_wires.2 (.inr (.inr ⟨rfl, rfl⟩)))
    exact (Safe.coeff hl).bind (.coeff c _) fun _ => (Safe.value left).bind (.value _) fun _ =>
      (Safe.coeff hr).bind (.coeff c _) fun _ => (Safe.value right).bind (.value _) fun _ =>
      (Safe.coeff hc).bind (.coeff c _) fun _ => .assignOrCheck constraint output _
  · exact (Safe.value left).bind (.value _) fun _ => (Safe.coeff hl).bind (.coeff c _) fun _ =>
      (Safe.coeff hm).bind (.coeff c _) fun _ => .checkEqual constraint _ _

/-- Asking whether a factor is solved fails if it stands for no wire; then it takes no part. -/
theorem Safe.factor {p : ℕ} {g : Gate} (opAt : c.operationAt p = some (.gate g)) (h : c.HasGate g)
    {x : WireId} (factor : x = g.xa ∨ x = g.xb) : Safe c K (Solver.isSolved x) := by
  intro s s' e size rows failed
  by_cases range : x.toNat < c.wireCount
  · exact Safe.isSolved range s s' e size rows failed
  · rw [run_isSolved, List.getElem?_eq_none (by omega)] at failed
    obtain ⟨rfl, -⟩ := EStateM.Result.error.inj failed
    rw [size]
    intro fault same _
    refine ⟨x, (Error.fatal.inj same).symm, by omega, p, g, opAt, factor, fun mem => ?_⟩
    exact range (h.wires x mem)

theorem Safe.factorsSolved {p : ℕ} {g : Gate} (opAt : c.operationAt p = some (.gate g))
    (h : c.HasGate g) : Safe c K (factorsSolved g) := by
  refine (Safe.factor opAt h (.inl rfl)).bind (.isSolved _) fun solved => ?_
  split
  · exact .factor opAt h (.inr rfl)
  · exact .pure _

/-- If both factors are solved they are wires of the circuit. -/
theorem factorsSolved_range {g : Gate} (size : s.values.length = c.wireCount)
    (h : (factorsSolved g).run s = .ok true s') :
    g.xa.toNat < c.wireCount ∧ g.xb.toNat < c.wireCount := by
  simp only [factorsSolved, bind_ok, isSolved_ok] at h
  obtain ⟨ready, _, ⟨rfl, v, left, rfl⟩, h⟩ := h
  rw [← size]
  refine ⟨(List.getElem?_eq_some_iff.1 left).1, ?_⟩
  split at h
  · obtain ⟨-, v', right, -⟩ := isSolved_ok.1 h
    exact (List.getElem?_eq_some_iff.1 right).1
  · cases (pure_ok.1 h).1

theorem Safe.solvePackedGate (constraint : UInt32) {b : Blueprint} {words : CallData} {p : ℕ}
    {g : Gate} (read : b.gateOf words = .ok g) (opAt : c.operationAt p = some (.gate g))
    (h : c.HasGate g) : Safe c K (solvePackedGate c constraint b words g) := by
  refine (Safe.factorsSolved opAt h).bind_of_ok (.factorsSolved g) fun ready s s' size found => ?_
  split
  · next both =>
    simp only [Bool.and_eq_true] at both
    obtain ⟨closed, rfl⟩ := both
    obtain ⟨left, right⟩ := factorsSolved_range size found
    exact .closedForm constraint closed read h left right
  · exact .solveGate constraint h

/-! ## Instructions -/

variable {hints : HintRegistry} {index : UInt32}

/-- What an instruction of a checked circuit can fail with, if its row is empty. -/
theorem solveInstruction_safe (checked : c.Checked) (hints : HintRegistry)
    (bound : index.toNat < c.instructions.length) :
    Safe c (c.ownRow index.toNat) (solveInstruction c hints index) := by
  have found := List.getElem?_eq_getElem bound
  obtain ⟨op, operation, accepted⟩ := (checked.admissible found).operation
  obtain ⟨b, words, parts⟩ := Circuit.Decoded.of_operationOf operation
  have operands := Circuit.checkOperation_ok.1 accepted
  rw [solveInstruction_eq found parts, Circuit.ownRow_eq found operation]
  cases op with
  | r1c r => exact .solveR1C operands rfl
  | gate g =>
    exact .solvePackedGate _ parts.read.2
      (Circuit.operationAt_eq_some.2 ⟨_, found, operation⟩) operands
  | hint call => exact .solveHint hints operands.1 operands.2

/-! ## Runs -/

/-- A state in which some instructions are still to run, each of them once: their rows are empty. -/
structure Waiting (c : Circuit F) (todo : List UInt32) (s : State F) : Prop where
  size : s.values.length = c.wireCount
  nodup : todo.Nodup
  bound : ∀ index ∈ todo, index.toNat < c.instructions.length
  rows : ∀ index ∈ todo, ∀ k ∈ c.ownRow index.toNat, s.rows[k]? = some none

variable {todo rest later : List UInt32}

theorem Waiting.of_sublist (h : Waiting c todo s) (sub : rest.Sublist todo) : Waiting c rest s :=
  ⟨h.size, h.nodup.sublist sub, fun index mem => h.bound index (sub.subset mem),
    fun index mem => h.rows index (sub.subset mem)⟩

theorem Waiting.of_perm (h : Waiting c todo s) (same : rest.Perm todo) : Waiting c rest s :=
  ⟨h.size, same.nodup_iff.2 h.nodup, fun index mem => h.bound index (same.subset mem),
    fun index mem => h.rows index (same.subset mem)⟩

/-- One of the instructions runs. It fails with nothing else than it may, and fills no row of the
    others, even if it fails. -/
theorem Waiting.step (checked : c.Checked) (hints : HintRegistry)
    (h : Waiting c (index :: rest) s) :
    (∀ e s', (solveInstruction c hints index).run s = .error e s' → c.MayFail e) ∧
      Waiting c rest (stateAfter ((solveInstruction c hints index).run s)) := by
  have bound := h.bound index List.mem_cons_self
  have fills := Writes.solveInstruction c hints index s
  obtain ⟨absent, nodup⟩ := List.nodup_cons.1 h.nodup
  obtain ⟨levels, accepted⟩ := checked.accepted
  refine ⟨fun e s' => solveInstruction_safe checked hints bound s s' e h.size
    (h.rows index List.mem_cons_self), by rw [fills.values.1, h.size], nodup,
    fun q mem => h.bound q (List.mem_cons_of_mem index mem), fun q mem k own => ?_⟩
  have other : k ∉ c.ownRow index.toNat := by
    intro own'
    exact toNat_ne_of_notMem mem absent
      (Circuit.ownRow_injective checked.wellFormed accepted.small own own')
  rw [fills.rows.outside other]
  exact h.rows q (List.mem_cons_of_mem index mem) k own

/-- What may come of a run: an error that may be, or a state in which the others have still to
    run. -/
def EndsSafely (c : Circuit F) (later : List UInt32) :
    EStateM.Result (Error F) (State F) Unit → Prop
  | .ok _ s => Waiting c later s
  | .error e _ => c.MayFail e

theorem runInstructions_safe (checked : c.Checked) (hints : HintRegistry) {l : List UInt32}
    (h : Waiting c (l ++ later) s) :
    EndsSafely c later ((runInstructions c hints l).run s) := by
  induction l generalizing s with
  | nil => exact h
  | cons index l ih =>
    obtain ⟨safe, next⟩ := Waiting.step checked hints h
    rw [runInstructions, EStateM.run_bind]
    cases run : (solveInstruction c hints index).run s with
    | ok _ s₁ =>
      rw [run] at next
      exact ih next
    | error e s₁ => exact safe e s₁ run

/-- Tasks that are under way: what they have not run has still to run, and what has failed may. -/
structure Pending (c : Circuit F) (later : List UInt32) (tasks : List (Task F)) (s : State F) :
    Prop where
  waiting : Waiting c (remaining tasks ++ later) s
  failed : ∀ e, .failed e ∈ tasks → c.MayFail e

/-- The next instruction of a task may be put before all others. -/
theorem Waiting.next_first {before after : List (Task F)}
    (h : Waiting c (remaining (before ++ .running (index :: rest) :: after) ++ later) s) :
    Waiting c (index :: (remaining (before ++ .running rest :: after) ++ later)) s := by
  refine h.of_perm ?_
  have head (l : List UInt32) : remaining [(.running l : Task F)] = l := by simp [remaining]
  rw [remaining_middle, remaining_middle, head, head, ← List.cons_append, List.cons_append]
  exact (List.perm_middle.symm).append_right _

theorem Pending.step (checked : c.Checked) {tasks tasks' : List (Task F)}
    (step : TaskStep c hints (tasks, s) (tasks', s')) (h : Pending c later tasks s) :
    Pending c later tasks' s' := by
  cases step with
  | @runs before after index rest _ _ run =>
    have first := h.waiting.next_first
    obtain ⟨-, next⟩ := Waiting.step checked hints first
    rw [run] at next
    refine ⟨next, fun e mem => h.failed e ?_⟩
    simp only [List.mem_append, List.mem_cons, reduceCtorEq, false_or] at mem ⊢
    exact mem
  | @fails before after index rest _ _ e run =>
    have first := h.waiting.next_first
    obtain ⟨safe, next⟩ := Waiting.step checked hints first
    rw [run] at next
    refine ⟨?_, fun e' mem => ?_⟩
    · refine next.of_sublist ?_
      rw [remaining_middle, remaining_middle]
      have dropped : remaining [Task.failed e] = ([] : List UInt32) := rfl
      rw [dropped, List.nil_append]
      exact ((List.sublist_append_right _ _).append_left _).append_right _
    · simp only [List.mem_append, List.mem_cons, Task.failed.injEq] at mem
      obtain mem | rfl | mem := mem
      · exact h.failed e' (by simp [mem])
      · exact safe e' s' run
      · exact h.failed e' (by simp [mem])

/-- In whatever order the tasks take their steps, none fails with anything else. -/
theorem tasksRun_safe (checked : c.Checked) {before after : List (Task F) × State F}
    (run : TasksRun c hints before after) (h : Pending c later before.1 before.2) :
    Pending c later after.1 after.2 := by
  induction run with
  | refl => exact h
  | tail _ step ih => exact ih.step checked step

/-! ## Levels -/

theorem remaining_of_ended {tasks : List (Task F)} (ended : ∀ t ∈ tasks, t.HasEnded) :
    remaining tasks = [] := by
  rw [remaining, List.flatMap_eq_nil_iff]
  intro t mem
  have h := ended t mem
  cases t with
  | running rest => exact h
  | failed e => rfl

theorem levelRuns_safe (checked : c.Checked) {config : SolverConfig} {number : ℕ}
    {level : List UInt32} {result : EStateM.Result (Error F) (State F) Unit}
    (run : LevelRuns c config number level s result) (h : Waiting c (level ++ later) s) :
    EndsSafely c later result := by
  cases run with
  | whole unsplit => exact runInstructions_safe checked config.hints h
  | @split ended s' split run finished =>
    have first : Pending c later ((tasksOf config level).map .running)
        (s.withDispatch ⟨number, level.length, (tasksOf config level).length⟩) := by
      refine ⟨?_, by simp⟩
      rw [remaining_running, tasksOf, flatten_slices]
      exact ⟨h.size, h.nodup, h.bound, h.rows⟩
    have last := tasksRun_safe checked run first
    unfold tasksResult
    split
    · have waiting := last.waiting
      rwa [remaining_of_ended finished] at waiting
    · next e failure =>
      obtain ⟨t, mem, is⟩ := List.exists_of_findSome?_eq_some failure
      cases t with
      | running rest => cases is
      | failed e' =>
        obtain rfl := Option.some.inj is
        exact last.failed e' mem

theorem levelsRun_safe (checked : c.Checked) {config : SolverConfig} {number : ℕ}
    {levels : List (List UInt32)} {result : EStateM.Result (Error F) (State F) Unit}
    (run : LevelsRun c config number levels s result) (h : Waiting c levels.flatten s) :
    EndsSafely c [] result := by
  induction run with
  | nil => exact h
  | @fails _ level rest _ _ _ first =>
    have safe : EndsSafely c rest.flatten _ := levelRuns_safe checked first h
    exact safe
  | next first others ih => exact ih (levelRuns_safe checked first h)

/-! ## Attempts -/

theorem Safe.assignFrom {place : ℕ} {xs : List F.Elem} (range : place + xs.length ≤ c.wireCount) :
    Safe c K (assignFrom place xs) := by
  induction xs generalizing place with
  | nil => exact .pure _
  | cons x xs ih =>
    rw [List.length_cons] at range
    have low : (UInt32.ofNat place).toNat < c.wireCount := by
      rw [UInt32.toNat_ofNat']
      exact Nat.lt_of_le_of_lt (Nat.mod_le _ _) (by omega)
    exact (Safe.assign low x).bind (.assign (Set.mem_univ _) x) fun _ => ih (by omega)

/-- Setting the inputs meets no fault. -/
theorem start_safe (checked : c.Checked) {witness : List F.Elem} {e : Error F}
    (failed : start c hints witness = .error e) : c.MayFail e := by
  obtain rfl | rfl | ⟨size, s', run⟩ := start_eq_error failed
  · exact Circuit.mayFail_of_not_fatal rfl
  · exact Circuit.mayFail_of_not_fatal rfl
  · have one := (Circuit.validate_eq_ok.1 checked.valid).1
    have length := length_inputsOf size fun kind => Circuit.inputCount_pos (one kind)
    have range : 0 + (inputsOf c witness).length ≤ c.wireCount := by
      rw [Nat.zero_add, length]
      exact Nat.le_add_right _ _
    have safe : Safe c ∅ (Solver.assignFrom 0 (inputsOf c witness)) := .assignFrom range
    exact safe _ s' e (by simp [State.blank]) (by simp) run

/-- At the start all instructions have still to run, and no row is filled. -/
theorem start_waiting (checked : c.Checked) {witness : List F.Elem}
    (started : start c hints witness = .ok s) : Waiting c c.levels.schedule.flatten s := by
  obtain ⟨levels, places⟩ := checked.accepted
  refine ⟨(start_begun started).size, places.nodup, fun index => (places.mem index).1,
    fun index mem k own => ?_⟩
  obtain ⟨i, r, found, decoded, rfl⟩ := own
  have constraint := (Circuit.readsAs_r1cOf decoded).isConstraint
  have kind := checked.wellFormed.r1cs_of_r1c (List.mem_of_getElem? found) decoded rfl
  refine row_of_start kind started ?_
  rw [(checked.admissible found).number]
  exact Circuit.constraintsBefore_lt checked.wellFormed found constraint

/-- After all levels every row is filled and every gate can be read. -/
theorem solution_safe (hp : F.IsPrime) (checked : c.Checked) {witness : List F.Elem}
    (started : start c hints witness = .ok s)
    (progress : Progress c hints c.levels.schedule.flatten s s') {fault : FatalError}
    (failed : solution c s' = .error fault) : c.MayFail (.fatal fault) := by
  have wf := checked.wellFormed
  obtain ⟨levels, accepted⟩ := checked.accepted
  unfold solution at failed
  cases complete : assignment s' with
  | error e =>
    rw [complete] at failed
    obtain rfl := Except.error.inj failed
    refine Circuit.mayFail_of_not_structural fun structural => ?_
    unfold assignment at complete
    split at complete
    · split at complete
      · cases complete
      · obtain rfl := Except.error.inj complete
        exact structural
    · obtain rfl := Except.error.inj complete
      exact structural
  | ok w =>
    rw [complete] at failed
    cases kind : c.kind with
    | r1cs =>
      obtain ⟨rows, filled⟩ := progress.rows_of_start hp wf kind accepted.small started
        fun index bound => (accepted.mem index).2 bound
      rw [kind, filled] at failed
      simp only [bind, Except.bind, completeRows_of_rows] at failed
      cases failed
    | sparse =>
      obtain ⟨gs, gates⟩ := wf.exists_gates kind fun i mem => by
        obtain ⟨p, bound, rfl⟩ := List.getElem_of_mem mem
        obtain ⟨op, operation, -⟩ :=
          (checked.admissible (List.getElem?_eq_getElem bound)).operation
        exact ⟨op, operation⟩
      rw [kind, gates] at failed
      cases failed

/-- Solving a circuit that was read meets no id, blueprint or words that do not exist, whatever the
    workers do, except for the wire of a factor that takes no part in its gate. -/
theorem solve_safe (hp : F.IsPrime) {bytes : Bytes} (accepted : Circuit.ofBytes bytes = .ok c)
    {config : SolverConfig} {witness : List F.Elem} {fault : FatalError}
    (failed : MayReturn c config witness (.error (.fatal fault)))
    (structural : fault.IsStructural) :
    ∃ x, fault = .wireOutOfRange x c.wireCount ∧ c.IsIdleFactor x := by
  have checked := Circuit.Checked.of_read accepted
  suffices may : c.MayFail (.fatal fault) from may fault rfl structural
  generalize same : (Except.error (.fatal fault) : Except (Error F) (Solution F)) = out at failed
  cases failed with
  | refused refused =>
    obtain rfl := Except.error.inj same
    exact start_safe checked refused
  | @ran s result started run =>
    have safe := levelsRun_safe checked run (start_waiting checked started)
    cases result with
    | error e s' =>
      obtain rfl := Except.error.inj same
      exact safe
    | ok _ s' =>
      have progress := levelsRun_ok run rfl
      cases found : solution c s' with
      | ok sol =>
        simp only [outcomeOf, found] at same
        cases same
      | error e =>
        simp only [outcomeOf, found] at same
        obtain rfl := Error.fatal.inj (Except.error.inj same)
        exact solution_safe hp checked started progress found

/-- A copy of `x` by a gate whose second factor has no weight and stands for no wire. -/
def idleFactorCircuit : Circuit .tiny :=
  { [.secretInput "x", .internal, .blueprint .genericGate, .gate (copyGate 0 1) 0].foldl Edit.apply
      (.empty .tiny .sparse) with
    callData := [0, 9, 1, 1, 0, 3, 0, 0, 0] }

theorem idleFactorCircuit_read : ∃ (bytes : Bytes) (c : Circuit .tiny),
    idleFactorCircuit.toBytes = .ok bytes ∧
    Circuit.ofBytes bytes = .ok c ∧ c.witnessLength = 1 ∧ missingHints c noHints.hints = [] ∧
    solve c noHints [.ofNat 5] = .error (.fatal (.wireOutOfRange 9 2)) := by
  have facts : (idleFactorCircuit.toBytes.toOption.bind fun bytes =>
      (Circuit.ofBytes bytes : Except _ (Circuit .tiny)).toOption.map fun c =>
        (c.witnessLength, missingHints c noHints.hints, solve c noHints [.ofNat 5]))
      = some (1, [], .error (.fatal (.wireOutOfRange 9 2))) := by
    decide +kernel
  obtain ⟨bytes, written, rest⟩ := Option.bind_eq_some_iff.1 facts
  obtain ⟨c, accepted, told⟩ := Option.map_eq_some_iff.1 rest
  simp only [Prod.mk.injEq] at told
  exact ⟨bytes, c, except_toOption_eq_some.1 written, except_toOption_eq_some.1 accepted, told⟩

/-- The circuit is accepted when it is read, but the solver asks whether the factor is solved. -/
theorem solve_idleFactorCircuit : ∃ (bytes : Bytes) (c : Circuit .tiny),
    idleFactorCircuit.toBytes = .ok bytes ∧
    Circuit.ofBytes bytes = .ok c ∧ c.witnessLength = 1 ∧
    missingHints c noHints.hints = [] ∧
    ∃ fault, solve c noHints [.ofNat 5] = .error (.fatal fault) ∧ fault.IsStructural := by
  obtain ⟨bytes, c, written, accepted, length, registered, failed⟩ := idleFactorCircuit_read
  exact ⟨bytes, c, written, accepted, length, registered, _, failed, trivial⟩

theorem idleFactorCircuit_safe : ∃ (bytes : Bytes) (c : Circuit .tiny),
    idleFactorCircuit.toBytes = .ok bytes ∧
    Circuit.ofBytes bytes = .ok c ∧
    solve c noHints [.ofNat 5] = .error (.fatal (.wireOutOfRange 9 2)) ∧ c.IsIdleFactor 9 := by
  obtain ⟨bytes, c, written, accepted, -, -, failed⟩ := idleFactorCircuit_read
  obtain ⟨x, same, idle⟩ := solve_safe PrimeField.isPrime_tiny accepted
    (mayReturn_of_solve failed) (show FatalError.IsStructural (.wireOutOfRange 9 2) from trivial)
  obtain ⟨rfl, -⟩ := FatalError.wireOutOfRange.inj same
  exact ⟨bytes, c, written, accepted, failed, idle⟩

end Solver

end CircuitWitness
