import CircuitWitness.Proofs.Circuit.Constraints
import CircuitWitness.Proofs.Circuit.Validity
import CircuitWitness.Proofs.Solver.AppendOrder

/-!
# Refuted constraints

An attempt fails as unsatisfied only at a check: of a product whose terms are solved, or whose other
factor is zero, of a gate that is not solved any more, or of a value that has been found before. The
relation that fails there is that of the constraint, and what it says does not depend on wires that
have no value yet. So the constraint is false whatever values they get.

Results:
* `NoCheck.bind_unsatisfied`: a program in which only the last part checks fails there.
* `solveR1C_unsatisfied`, `solveGate_unsatisfied`, `closedForm_unsatisfied`: what a failed check
  says of the constraint or the gate.
* `solve_unsatisfied`: a constraint that is reported as unsatisfied is refuted.
-/

namespace CircuitWitness

variable {F : PrimeField} {c : Circuit F}

namespace Solver

variable {α β : Type} {s s' : State F} {hints : HintRegistry} {k : UInt32} {u : Unsatisfied F}

/-! ## Programs without checks -/

/-- A program that does not find a constraint unsatisfied. -/
def NoCheck (x : Solve F α) : Prop :=
  ∀ s u s', x.run s ≠ .error (.unsatisfied u) s'

theorem NoCheck.pure (a : α) : NoCheck (F := F) (pure a) := by
  intro s u s' failed
  cases failed

theorem NoCheck.throw {e : Error F} (other : ∀ u, e ≠ .unsatisfied u) :
    NoCheck (throw e : Solve F α) := by
  intro s u s' failed
  obtain ⟨same, -⟩ := EStateM.Result.error.inj failed
  exact other u same

theorem NoCheck.fail (e : FatalError) : NoCheck (F := F) (fail e : Solve F α) := by
  apply NoCheck.throw
  intro u same
  cases same

/-- If the first of two programs does not check, the second one has found what is unsatisfied. -/
theorem NoCheck.bind_unsatisfied {x : Solve F α} {f : α → Solve F β} (h : NoCheck x)
    (failed : (x >>= f).run s = .error (.unsatisfied u) s') :
    ∃ a s₁, x.run s = .ok a s₁ ∧ (f a).run s₁ = .error (.unsatisfied u) s' := by
  obtain first | second := bind_error.1 failed
  · exact absurd first (h s u s')
  · exact second

theorem NoCheck.bind {x : Solve F α} {f : α → Solve F β} (hx : NoCheck x)
    (hf : ∀ a, NoCheck (f a)) : NoCheck (x >>= f) := by
  intro s u s' failed
  obtain ⟨a, s₁, -, second⟩ := hx.bind_unsatisfied failed
  exact hf a s₁ u s' second

theorem NoCheck.foldlM {f : β → α → Solve F β} (hf : ∀ b a, NoCheck (f b a)) (l : List α) (b : β) :
    NoCheck (l.foldlM f b) := by
  induction l generalizing b with
  | nil => exact .pure b
  | cons a l ih =>
    rw [List.foldlM_cons]
    exact (hf b a).bind ih

theorem NoCheck.isSolved (w : WireId) : NoCheck (F := F) (isSolved w) := by
  intro s u s' failed
  rw [run_isSolved] at failed
  split at failed <;> cases failed

theorem NoCheck.value (w : WireId) : NoCheck (F := F) (value w) := by
  intro s u s' failed
  rw [run_value] at failed
  split at failed <;> cases failed

theorem NoCheck.assign (w : WireId) (x : F.Elem) : NoCheck (assign w x) := by
  intro s u s' failed
  rw [run_assign] at failed
  split at failed <;> cases failed

theorem NoCheck.coeff (c : Circuit F) (q : CoeffId) : NoCheck (coeff c q) := by
  intro s u s' failed
  rw [run_coeff] at failed
  split at failed <;> cases failed

/-- What is unsatisfied after a wire was read, is so for its value. -/
theorem value_bind_unsatisfied {w : WireId} {f : F.Elem → Solve F α}
    (failed : (value w >>= f).run s = .error (.unsatisfied u) s') :
    ∃ x, s.values[w.toNat]? = some (some x) ∧ (f x).run s = .error (.unsatisfied u) s' := by
  obtain ⟨x, s₁, read, rest⟩ := (NoCheck.value w).bind_unsatisfied failed
  obtain ⟨same, solved⟩ := value_ok.1 read
  rw [same] at rest
  exact ⟨x, solved, rest⟩

theorem coeff_bind_unsatisfied {q : CoeffId} {f : F.Elem → Solve F α}
    (failed : (coeff c q >>= f).run s = .error (.unsatisfied u) s') :
    ∃ x, c.coeffs.get? q = some x ∧ (f x).run s = .error (.unsatisfied u) s' := by
  obtain ⟨x, s₁, read, rest⟩ := (NoCheck.coeff c q).bind_unsatisfied failed
  obtain ⟨same, range⟩ := coeff_ok.1 read
  rw [same] at rest
  exact ⟨x, range, rest⟩

theorem NoCheck.record (k : UInt32) (row : Row F) : NoCheck (record k row) := by
  intro s u s' failed
  rw [run_record] at failed
  split at failed <;> cases failed

theorem NoCheck.termValue (c : Circuit F) (t : Term) : NoCheck (termValue c t) := by
  unfold Solver.termValue
  split
  · exact .pure _
  · refine (NoCheck.value _).bind fun x => ?_
    split
    · exact .pure _
    · split
      · exact .pure _
      · split
        · exact .pure _
        · exact (NoCheck.coeff c _).bind fun q => .pure _

/-- What is unsatisfied is the constraint that was to be checked. -/
theorem unsatisfied_error {r : Relation F}
    (failed : (unsatisfied c k r : Solve F α).run s = .error (.unsatisfied u) s') :
    u.constraint = k := by
  obtain ⟨same, -⟩ := EStateM.Result.error.inj failed
  rw [← Error.unsatisfied.inj same]

/-! ## Rank-one constraints -/

theorem NoCheck.scan (c : Circuit F) (k : UInt32) (r : R1C) : NoCheck (scan c k r) := by
  have term (side : Side) (p : Partial F) (t : Term) : NoCheck (scanTerm c k side p t) := by
    refine (NoCheck.isSolved _).bind fun b => ?_
    split
    · exact (NoCheck.termValue c t).bind fun x => .pure _
    · split
      · exact (NoCheck.fail _).bind fun _ => .pure _
      · exact .pure _
  exact (NoCheck.foldlM (term .l) _ _).bind fun _ =>
    (NoCheck.foldlM (term .r) _ _).bind fun _ => .foldlM (term .o) _ _

theorem NoCheck.wireOfTerm (x : F.Elem) (q : CoeffId) (v : F.Elem) :
    NoCheck (wireOfTerm x q v) := by
  unfold Solver.wireOfTerm
  split
  · exact .pure _
  · split
    · exact .pure _
    · split
      · exact .fail _
      · split
        · exact .pure _
        · exact .fail _

/-- If no value will do for a term, the product does not hold for any. -/
theorem not_holds_of_missing? {row : Row F} {side : Side} (noValue : row.missing? side = none)
    (x : F.Elem) : ¬ (row.add side x).Holds := by
  intro holds
  cases side with
  | l =>
    simp only [Row.Holds, Row.add] at holds
    simp only [Row.missing?] at noValue
    split at noValue
    · cases noValue
    · next zero =>
      split at noValue
      · cases noValue
      · next nonzero =>
        rw [PrimeField.Elem.inverse?_eq_none_iff.1 zero, mul_zero] at holds
        exact nonzero holds.symm
  | r =>
    simp only [Row.Holds, Row.add] at holds
    simp only [Row.missing?] at noValue
    split at noValue
    · cases noValue
    · next zero =>
      split at noValue
      · cases noValue
      · next nonzero =>
        rw [PrimeField.Elem.inverse?_eq_none_iff.1 zero, zero_mul] at holds
        exact nonzero holds.symm
  | o => cases noValue

/-- A rank-one constraint that is unsatisfied is false whatever values the unsolved wires get. -/
theorem solveR1C_unsatisfied {r : R1C}
    (failed : (solveR1C c k r).run s = .error (.unsatisfied u) s') :
    u.constraint = k ∧ ∀ w : List F.Elem, Extends w s → ¬ (c.rowOn w r).Holds := by
  obtain ⟨p, _, scanned, rest⟩ := (NoCheck.scan c k r).bind_unsatisfied failed
  obtain ⟨rfl, total, -, -⟩ := scan_ok scanned
  cases unknown : p.unknown with
  | none =>
    simp only [unknown] at rest
    split at rest
    · next differ =>
      obtain here | ⟨_, _, -, later⟩ := bind_error.1 rest
      · refine ⟨unsatisfied_error here, fun w extension => ?_⟩
        rw [← total w extension, Partial.total, unknown]
        exact differ
      · exact absurd later (NoCheck.record k _ _ _ _)
    · exact absurd rest (NoCheck.record k _ _ _ _)
  | some found =>
    obtain ⟨side, t⟩ := found
    simp only [unknown] at rest
    split at rest
    · next noValue =>
      refine ⟨unsatisfied_error rest, fun w extension => ?_⟩
      rw [← total w extension, Partial.total, unknown]
      exact not_holds_of_missing? noValue _
    · have silent (x : F.Elem) : NoCheck (do
          let q ← coeff c t.coeff
          let wireValue ← wireOfTerm x t.coeff q
          assign t.wire wireValue
          record k (p.row.add side x)) :=
        (NoCheck.coeff c _).bind fun q => (NoCheck.wireOfTerm _ _ _).bind fun y =>
          (NoCheck.assign _ _).bind fun _ => .record _ _
      exact absurd rest (silent _ _ _ _)

/-! ## Gates -/

theorem NoCheck.secondFactor (g : Gate) : NoCheck (F := F) (secondFactor g) := by
  unfold Solver.secondFactor
  split
  · exact .pure _
  · exact .value _

theorem NoCheck.unsolvedOf (l : List WireId) : NoCheck (F := F) (unsolvedOf l) := by
  induction l with
  | nil => exact .pure _
  | cons x l ih => exact (NoCheck.isSolved x).bind fun _ => ih.bind fun _ => .pure _

theorem NoCheck.operand (x : WireId) (used : Bool) (y : WireId) :
    NoCheck (F := F) (operand x used y) := by
  unfold Solver.operand
  split
  · exact .pure _
  · split
    · exact .pure _
    · exact (NoCheck.value x).bind fun _ => .pure _

theorem NoCheck.gatePolynomial (c : Circuit F) (g : Gate) (y : WireId) :
    NoCheck (gatePolynomial c g y) :=
  (NoCheck.operand _ _ y).bind fun _ => (NoCheck.operand _ _ y).bind fun _ =>
    (NoCheck.operand _ _ y).bind fun _ => (NoCheck.coeff c _).bind fun _ =>
    (NoCheck.coeff c _).bind fun _ => (NoCheck.coeff c _).bind fun _ =>
    (NoCheck.coeff c _).bind fun _ => (NoCheck.coeff c _).bind fun _ => .pure _

/-- A gate whose check fails does not vanish under any assignment that extends the state. -/
theorem checkGate_unsatisfied {g : Gate}
    (failed : (checkGate c k g).run s = .error (.unsatisfied u) s') :
    u.constraint = k ∧ ∀ w : List F.Elem, Extends w s → c.gateOn w g ≠ 0 := by
  rw [checkGate_eq] at failed
  obtain ⟨l, _, hl, failed⟩ := (NoCheck.termValue c _).bind_unsatisfied failed
  obtain ⟨r, _, hr, failed⟩ := (NoCheck.termValue c _).bind_unsatisfied failed
  obtain ⟨o, _, ho, failed⟩ := (NoCheck.termValue c _).bind_unsatisfied failed
  obtain ⟨m₀, _, hm₀, failed⟩ := (NoCheck.termValue c _).bind_unsatisfied failed
  obtain ⟨m₁, _, hm₁, failed⟩ := (NoCheck.secondFactor g).bind_unsatisfied failed
  obtain ⟨q, range, last⟩ := coeff_bind_unsatisfied failed
  obtain ⟨rfl, -, hl⟩ := termValue_ok hl
  obtain ⟨rfl, -, hr⟩ := termValue_ok hr
  obtain ⟨rfl, -, ho⟩ := termValue_ok ho
  obtain ⟨rfl, -, hm₀⟩ := termValue_ok hm₀
  obtain ⟨rfl, hm₁⟩ := secondFactor_ok (c := c) hm₁
  unfold checkSum at last
  split at last
  · next nonzero =>
    refine ⟨unsatisfied_error last, fun w extension zero => nonzero ?_⟩
    have second := hm₁ w extension
    rw [hl w extension, hr w extension, ho w extension, hm₀ w extension]
    simp only [Circuit.gateOn, Circuit.gateAt, Circuit.termOn, ← Circuit.coeffOn_eq range] at zero ⊢
    linear_combination zero + wireOn w g.xa * second
  · cases last

theorem checkIfPlain_unsatisfied {g : Gate}
    (failed : (checkIfPlain c k g).run s = .error (.unsatisfied u) s') :
    u.constraint = k ∧ g.commitment = .plain ∧
      ∀ w : List F.Elem, Extends w s → c.gateOn w g ≠ 0 := by
  unfold checkIfPlain at failed
  split at failed
  · next plain =>
    obtain ⟨number, refuted⟩ := checkGate_unsatisfied failed
    exact ⟨number, plain, refuted⟩
  · cases failed

/-- A gate that is unsatisfied is false for whatever values the unsolved wires get. -/
theorem solveGate_unsatisfied {g : Gate}
    (failed : (solveGate c k g).run s = .error (.unsatisfied u) s') :
    u.constraint = k ∧ g.commitment = .plain ∧
      ∀ w : List F.Elem, Extends w s → c.gateOn w g ≠ 0 := by
  unfold solveGate at failed
  split at failed
  · cases failed
  · obtain ⟨us, _, found, rest⟩ := (NoCheck.unsolvedOf _).bind_unsatisfied failed
    obtain ⟨same, -, -⟩ := unsolvedOf_ok found
    rw [same] at rest
    dsimp only at rest
    split at rest
    · exact checkIfPlain_unsatisfied rest
    · next y =>
      obtain ⟨p, _, poly, last⟩ := (NoCheck.gatePolynomial c g y).bind_unsatisfied rest
      obtain ⟨same, poly⟩ := gatePolynomial_ok poly
      rw [same] at last
      split at last
      · rw [fail_bind] at last
        exact absurd last (NoCheck.fail _ _ _ _)
      · next alpha =>
        rw [not_not] at alpha
        split at last
        · exact absurd last (NoCheck.assign _ _ _ _ _)
        · next flat =>
          -- The gate does not depend on the wire, so what it is with zero there it is always.
          have beta := PrimeField.Elem.inverse?_eq_none_iff.1 flat
          have same (w : List F.Elem) (extension : Extends w s) : c.gateOn w g = p.gamma := by
            rw [poly w extension, alpha, beta]
            ring
          obtain ⟨_, s₁, assigned, check⟩ := (NoCheck.assign _ _).bind_unsatisfied last
          obtain ⟨empty, rfl⟩ := assign_ok.1 assigned
          obtain ⟨number, plain, refuted⟩ := checkIfPlain_unsatisfied check
          refine ⟨number, plain, fun w extension => ?_⟩
          have filled := extends_filled (s.withValue y 0)
          have later := fills_withValue (W := .univ) (K := ∅) empty (Set.mem_univ _) 0
          have nonzero := refuted _ filled
          rw [same _ (filled.of_fills later)] at nonzero
          rwa [same w extension]
    · exact absurd rest (NoCheck.fail _ _ _ _)

/-! ## Gates in closed form -/

/-- A value that differs from the one that was found before, under every assignment. -/
theorem assignOrCheck_unsatisfied {x : WireId} {v : F.Elem}
    (failed : ((wireAccess c k).assignOrCheck x v).run s = .error (.unsatisfied u) s') :
    u.constraint = k ∧ ∀ w : List F.Elem, Extends w s → v ≠ wireOn w x := by
  obtain ⟨solved, _, asked, rest⟩ := (NoCheck.isSolved x).bind_unsatisfied failed
  obtain ⟨rfl, place, valueAt, rfl⟩ := isSolved_ok.1 asked
  cases place with
  | none => exact absurd rest (NoCheck.assign x v _ _ _)
  | some known =>
    obtain ⟨y, found, last⟩ := value_bind_unsatisfied rest
    simp only [wireAccess] at last
    split at last
    · cases last
    · next differ =>
      refine ⟨unsatisfied_error last, fun w extension => ?_⟩
      rwa [wireOn_eq (extension _ _ found)]

/-- A gate in closed form that is unsatisfied is false whatever values the unsolved wires get. -/
theorem closedForm_unsatisfied {b : Blueprint} {words : CallData} {g : Gate}
    (closed : b.isSolvable) (read : b.gateOf words = .ok g)
    (failed : (b.solve (wireAccess c k) words).run s = .error (.unsatisfied u) s') :
    u.constraint = k ∧ ∀ w : List F.Elem, Extends w s → c.gateOn w g ≠ 0 := by
  obtain ⟨qm, xa, xb, xc, rfl, rfl, rfl⟩ | ⟨xa, xb, xc, ql, qr, qc, rfl, rfl, rfl⟩ |
    ⟨xa, ql, qm, rfl, rfl, rfl⟩ := closedForm_words closed read
  · obtain ⟨q, hq, failed⟩ := coeff_bind_unsatisfied failed
    obtain ⟨a, ha, failed⟩ := value_bind_unsatisfied failed
    obtain ⟨b, hb, failed⟩ := value_bind_unsatisfied failed
    obtain ⟨number, differ⟩ := assignOrCheck_unsatisfied failed
    refine ⟨number, fun w extension zero => differ w extension ?_⟩
    rw [Circuit.gateOn_product, Circuit.coeffOn_eq hq, wireOn_eq (extension _ _ ha),
      wireOn_eq (extension _ _ hb)] at zero
    exact sub_eq_zero.1 zero
  · obtain ⟨l, hl, failed⟩ := coeff_bind_unsatisfied failed
    obtain ⟨a, ha, failed⟩ := value_bind_unsatisfied failed
    obtain ⟨r, hr, failed⟩ := coeff_bind_unsatisfied failed
    obtain ⟨b, hb, failed⟩ := value_bind_unsatisfied failed
    obtain ⟨q, hq, failed⟩ := coeff_bind_unsatisfied failed
    obtain ⟨number, differ⟩ := assignOrCheck_unsatisfied failed
    refine ⟨number, fun w extension zero => differ w extension ?_⟩
    rw [Circuit.gateOn_sum, Circuit.coeffOn_eq hl, Circuit.coeffOn_eq hr, Circuit.coeffOn_eq hq,
      wireOn_eq (extension _ _ ha), wireOn_eq (extension _ _ hb)] at zero
    exact sub_eq_zero.1 zero
  · obtain ⟨a, ha, failed⟩ := value_bind_unsatisfied failed
    obtain ⟨l, hl, failed⟩ := coeff_bind_unsatisfied failed
    obtain ⟨q, hq, failed⟩ := coeff_bind_unsatisfied failed
    simp only [wireAccess] at failed
    split at failed
    · cases failed
    · next nonzero =>
      refine ⟨unsatisfied_error failed, fun w extension => ?_⟩
      rwa [Circuit.gateOn_bit, Circuit.coeffOn_eq hl, Circuit.coeffOn_eq hq,
        wireOn_eq (extension _ _ ha)]

theorem NoCheck.factorsSolved (g : Gate) : NoCheck (F := F) (factorsSolved g) := by
  refine (NoCheck.isSolved _).bind fun b => ?_
  split
  · exact .isSolved _
  · exact .pure _

/-- Asking whether factors are solved leaves the state. -/
theorem factorsSolved_ok {g : Gate} {ready : Bool} (h : (factorsSolved g).run s = .ok ready s') :
    s' = s := by
  obtain ⟨first, _, asked, rest⟩ := bind_ok.1 h
  obtain ⟨rfl, -⟩ := isSolved_ok.1 asked
  split at rest
  · exact (isSolved_ok.1 rest).1
  · exact (pure_ok.1 rest).2

/-- What `solveGate_unsatisfied` says holds on both ways. -/
theorem solvePackedGate_unsatisfied {b : Blueprint} {words : CallData} {g : Gate}
    (read : b.gateOf words = .ok g)
    (failed : (solvePackedGate c k b words g).run s = .error (.unsatisfied u) s') :
    u.constraint = k ∧ g.commitment = .plain ∧
      ∀ w : List F.Elem, Extends w s → c.gateOn w g ≠ 0 := by
  obtain ⟨ready, _, asked, rest⟩ := (NoCheck.factorsSolved g).bind_unsatisfied failed
  obtain rfl := factorsSolved_ok asked
  split at rest
  · next both =>
    have closed : b.isSolvable = true := by simp_all
    obtain ⟨number, refuted⟩ := closedForm_unsatisfied closed read rest
    exact ⟨number, closedForm_plain closed read, refuted⟩
  · exact solveGate_unsatisfied rest

/-! ## Hints -/

theorem NoCheck.solveHint (c : Circuit F) (hints : HintRegistry) (h : HintCall) :
    NoCheck (solveHint c hints h) := by
  have term (sum : F.Elem) (t : Term) : NoCheck (addInputTerm c h.hint sum t) := by
    unfold addInputTerm
    split
    · exact .pure _
    · split
      · exact (NoCheck.coeff c _).bind fun _ => .pure _
      · refine (NoCheck.isSolved _).bind fun b => ?_
        have rest : NoCheck (do
            let x ← Solver.termValue c t
            return sum + x) := (NoCheck.termValue c t).bind fun _ => .pure _
        split
        · exact (NoCheck.fail _).bind fun _ => rest
        · exact rest
  have inputs (es : List LinearExpr) : NoCheck (inputValues c h.hint es) := by
    induction es with
    | nil => exact .pure _
    | cons e es ih =>
      exact (NoCheck.foldlM term e 0).bind fun _ => ih.bind fun _ => .pure _
  have outputs (l : List (WireId × ℕ)) : NoCheck (F := F) (assignAll l) := by
    induction l with
    | nil => exact .pure _
    | cons e l ih => exact (NoCheck.assign _ _).bind fun _ => ih
  unfold Solver.solveHint
  split
  · apply NoCheck.throw
    intro u same
    cases same
  · refine (inputs h.inputs).bind fun xs => ?_
    dsimp only
    split
    · apply NoCheck.throw
      intro u same
      cases same
    · exact outputs _

/-! ## Instructions -/

/-- A constraint is false for whatever values the unsolved wires get; a gate that binds or asserts a
    commitment is not meant. -/
def Refutes (c : Circuit F) (s : State F) : Operation → Prop
  | .r1c r => ∀ w : List F.Elem, Extends w s → ¬ (c.rowOn w r).Holds
  | .gate g => g.commitment = .plain ∧ ∀ w : List F.Elem, Extends w s → c.gateOn w g ≠ 0
  | .hint _ => False

/-- An instruction that fails as unsatisfied stands for a constraint that is refuted, and reports
    its number. -/
theorem solveInstruction_unsatisfied {index : UInt32}
    (failed : (solveInstruction c hints index).run s = .error (.unsatisfied u) s') :
    ∃ i op, c.instructions[index.toNat]? = some i ∧ c.operationOf i = .ok op ∧
      u.constraint = i.constraint ∧ Refutes c s op := by
  obtain ⟨-, fault, eq⟩ | ⟨i, b, words, op, found, parts, eq⟩ :=
    solveInstruction_cases c hints index
  · rw [eq] at failed
    exact absurd failed (NoCheck.fail _ _ _ _)
  · rw [eq] at failed
    refine ⟨i, op, found, parts.operation, ?_⟩
    cases op with
    | r1c r => exact solveR1C_unsatisfied failed
    | gate g => exact solvePackedGate_unsatisfied parts.read.2 failed
    | hint h => exact absurd failed (NoCheck.solveHint c hints h _ _ _)

end Solver

namespace Circuit

/-! ## Constraints by number -/

/-- Every instruction of a circuit can be decoded, whatever was done to it. -/
theorem Reachable.decodes (h : c.Reachable) (buffer : c.callData.length < 2 ^ 64) :
    ∀ i ∈ c.instructions, ∃ op, c.operationOf i = .ok op := by
  induction h with
  | empty kind =>
    intro i mem
    cases mem
  | read accepted =>
    intro i mem
    obtain ⟨number, admissible⟩ := (Checked.of_read accepted).admissible_of_mem mem
    obtain ⟨op, operation, -⟩ := admissible.operation
    exact ⟨op, operation⟩
  | @edit c e _ ih =>
    intro i mem
    have outcome := e.apply_outcome c
    have ext := Extends.of_outcome outcome
    have shorter := ext.callData.length_le
    have old (j : Instruction) (hj : j ∈ c.instructions) :
        ∃ op, (e.apply c).operationOf j = .ok op := by
      obtain ⟨op, operation⟩ := ih (by omega) j hj
      exact ⟨op, ext.operationOf operation⟩
    obtain grown | ⟨schedule, levels, -, -, same⟩ |
      ⟨op, noted, id, b, words, names, addition, same⟩ := outcome_cases outcome
    · exact old i (grown.instructions ▸ mem)
    · rw [same] at mem
      exact old i mem
    · rw [same] at mem
      obtain before | last := List.mem_append.1 mem
      · exact old i before
      · obtain rfl := List.mem_singleton.1 last
        rw [same]
        exact ⟨op, addition.operationOf_last (by omega) _ names⟩

/-- The rank-one constraints of a circuit can be read if its instructions can be decoded. -/
theorem WellFormed.exists_constraints (h : WellFormed c) (kind : c.kind = .r1cs)
    (decodes : ∀ i ∈ c.instructions, ∃ op, c.operationOf i = .ok op) :
    ∃ rs, c.constraints = .ok rs := by
  refine h.exists_readConstraints fun i hi constraint => ?_
  obtain ⟨op, operation⟩ := decodes i hi
  obtain ⟨r, rfl⟩ := h.rankOne_of_r1cs kind hi constraint operation
  exact ⟨r, readsAs_r1cOf operation⟩

/-- Constraint number `k` can be read, as far as the buffer is not too long for the instructions to
    point into it, and is false whatever values the wires get that are not solved. A gate of this
    number is one that the solver checks. -/
structure Refuted (c : Circuit F) (s : Solver.State F) (k : ℕ) : Prop where
  r1c : c.kind = .r1cs → (c.callData.length < 2 ^ 64 → ∃ rs, c.constraints = .ok rs) ∧
    ∃ r : R1C, (∀ rs, c.constraints = .ok rs → rs[k]? = some r) ∧
      ∀ w : List F.Elem, Solver.Extends w s → ¬ (c.rowOn w r).Holds
  gate : c.kind = .sparse → (c.callData.length < 2 ^ 64 → ∃ gs, c.gates = .ok gs) ∧
    ∃ g : Gate, (∀ gs, c.gates = .ok gs → gs[k]? = some g) ∧ g.commitment = .plain ∧
      ∀ w : List F.Elem, Solver.Extends w s → c.gateOn w g ≠ 0

/-- A constraint that is refuted at its instruction is so at its number. -/
theorem Reachable.refuted (h : c.Reachable) {p : ℕ} {i : Instruction} {op : Operation}
    {s : Solver.State F} (found : c.instructions[p]? = some i) (decoded : c.operationOf i = .ok op)
    (refutes : Solver.Refutes c s op) : c.Refuted s (c.constraintsBefore p) := by
  have wf := h.wellFormed
  have allowed := wf.allows (List.mem_of_getElem? found) decoded
  constructor
  · intro kind
    rw [kind] at allowed
    cases op with
    | r1c r =>
      refine ⟨fun buffer => wf.exists_constraints kind (h.decodes buffer), r, ?_, refutes⟩
      intro rs all
      exact getElem?_of_readsAs found (readsAs_r1cOf decoded) all
    | gate g => cases allowed
    | hint call => exact absurd refutes id
  · intro kind
    rw [kind] at allowed
    cases op with
    | r1c r => cases allowed
    | gate g =>
      refine ⟨fun buffer => wf.exists_gates kind (h.decodes buffer), g, ?_, refutes⟩
      intro gs all
      exact getElem?_of_readsAs found (readsAs_gateOf.2 decoded) all
    | hint call => exact absurd refutes id

end Circuit

namespace Solver

variable {config : SolverConfig} {witness : List F.Elem} {u : Unsatisfied F}

/-! ## Attempts -/

theorem NoCheck.assignFrom (place : ℕ) (xs : List F.Elem) : NoCheck (assignFrom place xs) := by
  induction xs generalizing place with
  | nil => exact .pure _
  | cons x xs ih => exact (NoCheck.assign _ _).bind fun _ => ih _

theorem start_satisfied {hints : HintRegistry} :
    start c hints witness ≠ .error (.unsatisfied u) := by
  intro failed
  obtain bad | bad | ⟨-, s', run⟩ := start_eq_error failed
  · cases bad
  · cases bad
  · exact NoCheck.assignFrom 0 _ _ _ _ run

/-- An attempt that fails as unsatisfied does so in a run through the levels. -/
theorem run_of_solve_unsatisfied (failed : solve c config witness = .error (.unsatisfied u)) :
    ∃ s s', start c config.hints witness = .ok s ∧
      (runLevels c config 0 c.levels.schedule).run s = .error (.unsatisfied u) s' := by
  simp only [solve, attempt] at failed
  split at failed
  · next e refused =>
    obtain rfl := Except.error.inj failed
    exact absurd refused start_satisfied
  · next s started =>
    split at failed
    · next s' ran =>
      cases found : solution c s' with
      | ok sol =>
        rw [found] at failed
        cases failed
      | error e =>
        rw [found] at failed
        cases failed
    · next e s' ran =>
      obtain rfl := Except.error.inj failed
      exact ⟨s, s', started, ran⟩

/-- A constraint that is reported as unsatisfied is false under every assignment that agrees with
    the wires that were solved when its instruction began, whatever values the other wires get. -/
theorem solve_unsatisfied (reachable : c.Reachable) (alone : config.workerCount ≤ 1)
    (failed : solve c config witness = .error (.unsatisfied u)) :
    ∃ done index rest s₀ s s', c.levels.schedule.flatten = done ++ index :: rest ∧
      start c config.hints witness = .ok s₀ ∧
      (runInstructions c config.hints done).run s₀ = .ok () s ∧
      (solveInstruction c config.hints index).run s = .error (.unsatisfied u) s' ∧
      c.Refuted s u.constraint.toNat := by
  obtain ⟨s₀, s', started, ran⟩ := run_of_solve_unsatisfied failed
  rw [runLevels_alone alone] at ran
  obtain ⟨done, index, rest, s, split, before, last⟩ := runInstructions_error ran
  obtain ⟨i, op, found, decoded, number, refutes⟩ := solveInstruction_unsatisfied last
  refine ⟨done, index, rest, s₀, s, s', split, started, before, last, ?_⟩
  have small : c.constraintsBefore index.toNat < wordRange :=
    Nat.lt_of_le_of_lt (c.constraintsBefore_le _) index.toNat_lt
  rw [number, reachable.wellFormed.number_toNat found small]
  exact reachable.refuted found decoded refutes

/-- The square `y` of `x`, a hint for the last bit of `y`, and the gate `x⋅z + 1 = 0`. -/
def inverseGateCircuit : Circuit .tiny :=
  [.secretInput "x", .internal, .internal, .internal, .blueprint .mul, .blueprint .genericHint,
    .blueprint .genericGate, .gate (.product 1 0 0 1) 0,
    .hint ⟨hintId "bits", [[⟨1, 1⟩]], [2]⟩ "bits" 1,
    .gate { Gate.empty with xa := 0, xb := 3, qm := 1, qc := 1 } 2].foldl Edit.apply
      (.empty .tiny .sparse)

/-- Options with the hint for bits, and one worker. -/
def oneWorker : SolverConfig := ⟨HintRegistry.empty.register "bits" .bits, some 1, 50, false⟩

/-- The gate has no `z` for `x = 0`. It is constraint number one, though instruction number two. -/
theorem solve_inverseGateCircuit :
    solve inverseGateCircuit oneWorker [0]
        = .error (.unsatisfied ⟨1, .gate 0 0 0 0 0 1, none⟩) ∧
      ∃ s, inverseGateCircuit.Refuted s 1 := by
  have failed : solve inverseGateCircuit oneWorker [0]
      = .error (.unsatisfied ⟨1, .gate 0 0 0 0 0 1, none⟩) := by
    decide +kernel
  have reachable : inverseGateCircuit.Reachable := Circuit.Reachable.edits (.empty .sparse) _
  have alone : oneWorker.workerCount ≤ 1 := Nat.le_refl 1
  obtain ⟨done, index, rest, s₀, s, s', -, -, -, -, refuted⟩ :=
    solve_unsatisfied reachable alone failed
  exact ⟨failed, s, refuted⟩

end Solver

end CircuitWitness
