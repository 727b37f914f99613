import CircuitWitness.Proofs.Solver.Execution
import CircuitWitness.Solver.Gate

/-!
# Solved gates

A gate is solved as a polynomial in its one unsolved wire. The operands that take no part are not
looked at; their coefficients are zero, so they do not change the value of the gate.

Results:
* `gatePolynomial_ok`: the polynomial is the gate, under every assignment that extends the state.
* `solveGate_ok`: a plain gate that was solved holds, and unless it is passed over all its wires
  are solved.
* `WritesOne.solveGate`: only one of the wires that take part in the gate is filled, at most.
-/

namespace CircuitWitness

variable {F : PrimeField}

/-! ## Wires of a gate -/

namespace Gate

theorem mem_wires {g : Gate} {x : WireId} :
    x ∈ g.wires ↔ g.usesA ∧ x = g.xa ∨ g.usesB ∧ x = g.xb ∨ g.usesC ∧ x = g.xc := by
  simp only [wires]
  cases g.usesA <;> cases g.usesB <;> cases g.usesC <;> simp <;> grind

theorem coeffOn_of_not_usesA {g : Gate} (c : Circuit F) (h : g.usesA = false) :
    c.coeffOn g.ql = 0 ∧ c.coeffOn g.qm = 0 := by
  simp only [usesA, Bool.or_eq_false_iff, decide_eq_false_iff_not, not_not] at h
  simp [h.1, h.2]

theorem coeffOn_of_not_usesB {g : Gate} (c : Circuit F) (h : g.usesB = false) :
    c.coeffOn g.qr = 0 ∧ c.coeffOn g.qm = 0 := by
  simp only [usesB, Bool.or_eq_false_iff, decide_eq_false_iff_not, not_not] at h
  simp [h.1, h.2]

theorem coeffOn_of_not_usesC {g : Gate} (c : Circuit F) (h : g.usesC = false) :
    c.coeffOn g.qo = 0 := by
  simp only [usesC, decide_eq_false_iff_not, not_not] at h
  simp [h]

end Gate

namespace Solver

variable {c : Circuit F} {s s' : State F} {W K : Set ℕ}

/-! ## Checks -/

/-- The second factor of the product of a gate; it is not read if the product has no weight. -/
def secondFactor (g : Gate) : Solve F F.Elem :=
  if g.qm = CoeffId.zero then pure 0 else value g.xb

/-- Fails unless the parts of a gate add up to zero. -/
def checkSum (c : Circuit F) (constraint : UInt32) (l r o m₀ m₁ q : F.Elem) : Solve F Unit :=
  if m₀ * m₁ + l + r + o + q ≠ 0 then unsatisfied c constraint (.gate l r o m₀ m₁ q) else pure ()

theorem checkGate_eq (c : Circuit F) (constraint : UInt32) (g : Gate) :
    checkGate c constraint g = (do
      let l ← termValue c ⟨g.ql, g.xa⟩
      let r ← termValue c ⟨g.qr, g.xb⟩
      let o ← termValue c ⟨g.qo, g.xc⟩
      let m₀ ← termValue c ⟨g.qm, g.xa⟩
      let m₁ ← secondFactor g
      let q ← coeff c g.qc
      checkSum c constraint l r o m₀ m₁ q) := by
  by_cases h : g.qm = CoeffId.zero <;> simp [checkGate, secondFactor, checkSum, h]

theorem Writes.secondFactor (g : Gate) : Writes (F := F) W K (secondFactor g) := by
  unfold Solver.secondFactor
  split
  · exact .pure _
  · exact .value _

theorem Writes.checkSum (c : Circuit F) (constraint : UInt32) (l r o m₀ m₁ q : F.Elem) :
    Writes W K (checkSum c constraint l r o m₀ m₁ q) := by
  unfold Solver.checkSum
  split
  · exact .unsatisfied c _ _
  · exact .pure _

theorem Writes.checkGate (c : Circuit F) (constraint : UInt32) (g : Gate) :
    Writes W K (checkGate c constraint g) := by
  rw [checkGate_eq]
  exact (Writes.termValue c _).bind fun _ => (Writes.termValue c _).bind fun _ =>
    (Writes.termValue c _).bind fun _ => (Writes.termValue c _).bind fun _ =>
    (Writes.secondFactor g).bind fun _ => (Writes.coeff c _).bind fun _ => .checkSum c _ _ _ _ _ _ _

theorem Writes.checkIfPlain (c : Circuit F) (constraint : UInt32) (g : Gate) :
    Writes W K (checkIfPlain c constraint g) := by
  unfold Solver.checkIfPlain
  split
  · exact .checkGate c constraint g
  · exact .pure _

theorem secondFactor_ok {g : Gate} {x : F.Elem} (h : (secondFactor g).run s = .ok x s') :
    s' = s ∧ ∀ w : List F.Elem, Extends w s →
      c.coeffOn g.qm * x = c.coeffOn g.qm * wireOn w g.xb := by
  unfold secondFactor at h
  split at h
  · next zero =>
    obtain ⟨rfl, rfl⟩ := pure_ok.1 h
    exact ⟨rfl, fun w _ => by simp [zero]⟩
  · obtain ⟨rfl, solved⟩ := value_ok.1 h
    exact ⟨rfl, fun w extension => by rw [wireOn_eq (extension _ _ solved)]⟩

theorem checkSum_ok {constraint : UInt32} {l r o m₀ m₁ q : F.Elem} {u : Unit}
    (h : (checkSum c constraint l r o m₀ m₁ q).run s = .ok u s') :
    s' = s ∧ m₀ * m₁ + l + r + o + q = 0 := by
  unfold checkSum at h
  split at h
  · cases h
  · next zero => exact ⟨(pure_ok.1 h).2, not_not.1 zero⟩

/-- A check that ends well leaves the state, and the gate holds. -/
theorem checkGate_ok {constraint : UInt32} {g : Gate} {u : Unit}
    (h : (checkGate c constraint g).run s = .ok u s') :
    s' = s ∧ ∀ w : List F.Elem, Extends w s → c.gateOn w g = 0 := by
  simp only [checkGate_eq, bind_ok] at h
  obtain ⟨l, _, hl, r, _, hr, o, _, ho, m₀, _, hm₀, m₁, _, hm₁, q, _, hq, h⟩ := h
  obtain ⟨rfl, -, hl⟩ := termValue_ok hl
  obtain ⟨rfl, -, hr⟩ := termValue_ok hr
  obtain ⟨rfl, -, ho⟩ := termValue_ok ho
  obtain ⟨rfl, -, hm₀⟩ := termValue_ok hm₀
  obtain ⟨rfl, hm₁⟩ := secondFactor_ok (c := c) hm₁
  obtain ⟨rfl, range⟩ := coeff_ok.1 hq
  obtain ⟨rfl, zero⟩ := checkSum_ok h
  refine ⟨rfl, fun w extension => ?_⟩
  have second := hm₁ w extension
  rw [hl w extension, hr w extension, ho w extension, hm₀ w extension] at zero
  simp only [Circuit.gateOn, Circuit.gateAt, Circuit.termOn, ← Circuit.coeffOn_eq range] at zero ⊢
  linear_combination zero - wireOn w g.xa * second

theorem checkIfPlain_ok {constraint : UInt32} {g : Gate} {u : Unit}
    (h : (checkIfPlain c constraint g).run s = .ok u s') :
    s' = s ∧ (g.commitment = .plain → ∀ w : List F.Elem, Extends w s → c.gateOn w g = 0) := by
  unfold checkIfPlain at h
  split at h
  · exact (checkGate_ok h).imp_right fun holds _ => holds
  · next notPlain => exact ⟨(pure_ok.1 h).2, fun plain => absurd plain notPlain⟩

/-! ## Unsolved wires -/

theorem Writes.unsolvedOf (l : List WireId) : Writes (F := F) W K (unsolvedOf l) := by
  induction l with
  | nil => exact .pure _
  | cons x l ih => exact (Writes.isSolved x).bind fun _ => ih.bind fun _ => .pure _

theorem unsolvedOf_ok {l us : List WireId} (h : (unsolvedOf l).run s = .ok us s') :
    s' = s ∧ (∀ x ∈ l, s.Solved x ∨ x ∈ us) ∧
      ∀ x ∈ us, x ∈ l ∧ s.values[x.toNat]? = some none := by
  induction l generalizing us with
  | nil =>
    simp only [unsolvedOf, pure_ok] at h
    obtain ⟨rfl, rfl⟩ := h
    simp
  | cons x l ih =>
    simp only [unsolvedOf, bind_ok, isSolved_ok, pure_ok] at h
    obtain ⟨b, _, ⟨rfl, v, place, rfl⟩, others, _, rest, rfl, rfl⟩ := h
    obtain ⟨rfl, covers, origin⟩ := ih rest
    cases v with
    | some v =>
      refine ⟨rfl, ?_, fun y hy => (origin y hy).imp_left (List.mem_cons_of_mem x)⟩
      rintro y (_ | ⟨_, hy⟩)
      · exact .inl ⟨v, place⟩
      · exact covers y hy
    | none =>
      refine ⟨rfl, ?_, ?_⟩
      · rintro y (_ | ⟨_, hy⟩)
        · exact .inr List.mem_cons_self
        · exact (covers y hy).imp_right (List.mem_cons_of_mem x)
      · rintro y (_ | ⟨_, hy⟩)
        · exact ⟨List.mem_cons_self, place⟩
        · exact (origin y hy).imp_left (List.mem_cons_of_mem x)

/-! ## The polynomial -/

theorem Writes.operand (x : WireId) (used : Bool) (u : WireId) :
    Writes (F := F) W K (operand x used u) := by
  unfold Solver.operand
  split
  · exact .pure _
  · split
    · exact .pure _
    · exact (Writes.value x).bind fun _ => .pure _

theorem Writes.gatePolynomial (c : Circuit F) (g : Gate) (u : WireId) :
    Writes W K (gatePolynomial c g u) :=
  (Writes.operand _ _ u).bind fun _ => (Writes.operand _ _ u).bind fun _ =>
    (Writes.operand _ _ u).bind fun _ => (Writes.coeff c _).bind fun _ =>
    (Writes.coeff c _).bind fun _ => (Writes.coeff c _).bind fun _ =>
    (Writes.coeff c _).bind fun _ => (Writes.coeff c _).bind fun _ => .pure _

theorem operand_ok {x u : WireId} {used : Bool} {a : Affine F}
    (h : (operand x used u).run s = .ok a s') :
    s' = s ∧ (used = false → a = ⟨0, 0⟩) ∧ ∀ w : List F.Elem, Extends w s → used = true →
      wireOn w x = a.slope * wireOn w u + a.constant := by
  unfold operand at h
  cases used with
  | false =>
    simp only [Bool.not_false, if_true, pure_ok] at h
    obtain ⟨rfl, rfl⟩ := h
    simp
  | true =>
    simp only [Bool.not_true, Bool.false_eq_true, if_false] at h
    split at h
    · next same =>
      obtain ⟨rfl, rfl⟩ := pure_ok.1 h
      exact ⟨rfl, by simp, fun w _ _ => by simp [same]⟩
    · simp only [bind_ok, value_ok, pure_ok] at h
      obtain ⟨y, _, ⟨rfl, solved⟩, rfl, rfl⟩ := h
      refine ⟨rfl, by simp, fun w extension _ => ?_⟩
      rw [wireOn_eq (extension _ _ solved)]
      simp

/-- An operand takes part with the same weight as its wire. -/
theorem operand_weight {x u : WireId} {used : Bool} {a : Affine F}
    (h : (operand x used u).run s = .ok a s') {w : List F.Elem} (extension : Extends w s)
    {q : F.Elem} (unused : used = false → q = 0) :
    q * wireOn w x = q * (a.slope * wireOn w u + a.constant) := by
  obtain ⟨-, -, value⟩ := operand_ok h
  cases used with
  | false => rw [unused rfl, zero_mul, zero_mul]
  | true => rw [value w extension rfl]

/-- The polynomial has the value of the gate at the value of the unsolved wire. -/
theorem gatePolynomial_ok {g : Gate} {u : WireId} {p : Quadratic F}
    (h : (gatePolynomial c g u).run s = .ok p s') :
    s' = s ∧ ∀ w : List F.Elem, Extends w s →
      c.gateOn w g = p.alpha * (wireOn w u * wireOn w u) + p.beta * wireOn w u + p.gamma := by
  simp only [gatePolynomial, bind_ok, coeff_ok, pure_ok] at h
  obtain ⟨a, _, ha, b, _, hb, o, _, ho, ql, _, ⟨rfl, hl⟩, qr, _, ⟨rfl, hr⟩, qo, _, ⟨rfl, hqo⟩,
    qm, _, ⟨rfl, hm⟩, qc, _, ⟨rfl, hc⟩, rfl, rfl⟩ := h
  obtain ⟨rfl, -, -⟩ := operand_ok ha
  obtain ⟨rfl, -, -⟩ := operand_ok hb
  obtain ⟨rfl, -, -⟩ := operand_ok ho
  refine ⟨rfl, fun w extension => ?_⟩
  have la := operand_weight ha extension (fun no => (g.coeffOn_of_not_usesA c no).1)
  have ma := operand_weight ha extension (fun no => (g.coeffOn_of_not_usesA c no).2)
  have rb := operand_weight hb extension (fun no => (g.coeffOn_of_not_usesB c no).1)
  have mb := operand_weight hb extension (fun no => (g.coeffOn_of_not_usesB c no).2)
  have oc := operand_weight ho extension (g.coeffOn_of_not_usesC c)
  simp only [Circuit.coeffOn_eq hl, Circuit.coeffOn_eq hr, Circuit.coeffOn_eq hqo,
    Circuit.coeffOn_eq hm] at la ma rb mb oc
  simp only [Circuit.gateOn, Circuit.gateAt, Circuit.coeffOn_eq hl, Circuit.coeffOn_eq hr,
    Circuit.coeffOn_eq hqo, Circuit.coeffOn_eq hm, Circuit.coeffOn_eq hc]
  linear_combination la + rb + oc + wireOn w g.xb * ma
    + (a.slope * wireOn w u + a.constant) * mb

/-! ## Gates as polynomials -/

/-- A gate fills one of the wires that take part, at most. -/
theorem WritesOne.solveGate (c : Circuit F) (constraint : UInt32) (g : Gate) :
    WritesOne (places g.wires) K (solveGate c constraint g) := by
  unfold Solver.solveGate
  split
  · exact .none (.pure _)
  · refine WritesOne.bind_of_ok (.unsolvedOf _) fun us s s' found => ?_
    obtain ⟨-, -, origin⟩ := unsolvedOf_ok found
    split
    · exact .none (.checkIfPlain c constraint g)
    · next u =>
      refine .single ?_ (mem_places.2 (origin u (by simp)).1)
      refine (Writes.gatePolynomial c g u).bind fun p => ?_
      dsimp only
      split
      · rw [fail_bind]
        exact .fail _
      · split
        · exact .assign (Set.mem_singleton _) _
        · exact (Writes.assign (Set.mem_singleton _) _).bind fun _ => .checkIfPlain c constraint g
    · exact .none (.fail _)

theorem Writes.solveGate (c : Circuit F) (constraint : UInt32) (g : Gate) :
    Writes (places g.wires) K (solveGate c constraint g) :=
  (WritesOne.solveGate c constraint g).writes

/-- A gate that ended well is solved unless it is passed over, and a plain one holds. -/
theorem solveGate_ok (hp : F.IsPrime) {constraint : UInt32} {g : Gate} {u : Unit}
    (h : (solveGate c constraint g).run s = .ok u s') :
    (g.commitment ≠ .asserts → ∀ x ∈ g.wires, s'.Solved x) ∧
      (g.commitment = .plain → ∀ w : List F.Elem, Extends w s' → c.gateOn w g = 0) := by
  have later := (Writes.solveGate (K := ∅) c constraint g).ok h
  unfold solveGate at h
  split at h
  · next asserts =>
    refine ⟨fun no => absurd asserts no, fun plain => ?_⟩
    rw [asserts] at plain
    cases plain
  · obtain ⟨us, _, found, rest⟩ := bind_ok.1 h
    obtain ⟨rfl, covers, origin⟩ := unsolvedOf_ok found
    dsimp only at rest
    split at rest
    · obtain ⟨rfl, holds⟩ := checkIfPlain_ok rest
      exact ⟨fun _ x hx => (covers x hx).resolve_right (by simp), holds⟩
    · next v =>
      obtain ⟨p, _, poly, last⟩ := bind_ok.1 rest
      obtain ⟨rfl, poly⟩ := gatePolynomial_ok poly
      split at last
      · simp only [bind_ok, fail_ok] at last
        obtain ⟨_, _, ⟨⟩, _⟩ := last
      · next alpha =>
        rw [not_not] at alpha
        have solved (filled : s'.Solved v) : ∀ x ∈ g.wires, s'.Solved x := by
          intro x hx
          obtain before | mem := covers x hx
          · exact before.of_fills later
          · rwa [List.mem_singleton.1 mem]
        split at last
        · next i inverse =>
          obtain ⟨empty, rfl⟩ := assign_ok.1 last
          have filled := withValue_value empty (-p.gamma * i)
          refine ⟨fun _ => solved ⟨_, filled⟩, fun _ w extension => ?_⟩
          rw [poly w (extension.of_fills later), alpha, wireOn_eq (extension _ _ filled)]
          linear_combination -p.gamma * PrimeField.Elem.mul_of_inverse? hp inverse
        · simp only [bind_ok, assign_ok] at last
          obtain ⟨_, _, ⟨empty, rfl⟩, check⟩ := last
          obtain ⟨rfl, holds⟩ := checkIfPlain_ok check
          exact ⟨fun _ => solved ⟨_, withValue_value empty 0⟩, holds⟩
    · exact absurd rest (by simp)

end Solver

end CircuitWitness
