import CircuitWitness.Proofs.Solver.Compression
import Mathlib.Algebra.Polynomial.Eval.Degree
import Mathlib.Tactic.ComputeDegree

/-!
# Roots of gates

With values for all wires but one, a gate is a polynomial in this wire, got by putting the
indeterminate into each place that holds it. The three places of a gate may hold the same wires in
any way, and some may take no part; so the terms of the polynomial come from several places, and
may cancel. The solver computes slopes and constants of the operands instead. Both give the same
polynomial, and what it does with a gate is decided by this polynomial.

Results:
* `poly_quadraticIn`: the polynomial that the solver computes is the one got by substitution.
* `eval_gateIn`, `natDegree_gateIn_le`: its values are those of the gate, and its degree is two at
  most, so that the cases below leave none out.
* `solveGate_exact`: which gates are solved, with which value, which are refused and which are
  found to be unsatisfied; no failure leaves more behind than the value of the unsolved wire.
-/

namespace CircuitWitness

variable {F : PrimeField} {c : Circuit F} {w : List F.Elem} {u : WireId} {g : Gate}

open Polynomial

/-! ## Gates as polynomials -/

/-- A wire in a gate that is solved for `u`: the indeterminate for `u`, else its value. -/
noncomputable def wireIn (w : List F.Elem) (u x : WireId) : Polynomial F.Elem :=
  if x = u then X else C (wireOn w x)

/-- The left side of a gate as a polynomial in the wire `u`. -/
noncomputable def Circuit.gateIn (c : Circuit F) (w : List F.Elem) (u : WireId) (g : Gate) :
    Polynomial F.Elem :=
  C (c.coeffOn g.ql) * wireIn w u g.xa + C (c.coeffOn g.qr) * wireIn w u g.xb
    + C (c.coeffOn g.qo) * wireIn w u g.xc
    + C (c.coeffOn g.qm) * (wireIn w u g.xa * wireIn w u g.xb) + C (c.coeffOn g.qc)

theorem wireOn_set (range : u.toNat < w.length) (x : WireId) (y : F.Elem) :
    wireOn (w.set u.toNat y) x = if x = u then y else wireOn w x := by
  split
  · next same => rw [same, wireOn_eq (List.getElem?_set_self range)]
  · next other =>
    have apart : u.toNat ≠ x.toNat := fun same => other (UInt32.toNat_inj.1 same.symm)
    rw [wireOn, wireOn, List.getElem?_set_ne apart]

theorem eval_wireIn (range : u.toNat < w.length) (x : WireId) (y : F.Elem) :
    (wireIn w u x).eval y = wireOn (w.set u.toNat y) x := by
  rw [wireOn_set range, wireIn]
  split
  · exact eval_X
  · exact eval_C

/-- The value of the polynomial is that of the gate once the wire has the value. -/
theorem eval_gateIn (range : u.toNat < w.length) (y : F.Elem) :
    (c.gateIn w u g).eval y = c.gateOn (w.set u.toNat y) g := by
  simp only [Circuit.gateIn, eval_add, eval_mul, eval_C, eval_wireIn range, Circuit.gateOn,
    Circuit.gateAt]
  ring

namespace Solver

/-- An operand as a polynomial. -/
noncomputable def Affine.poly (a : Affine F) : Polynomial F.Elem := C a.slope * X + C a.constant

/-- A polynomial given by its coefficients. -/
noncomputable def Quadratic.poly (p : Quadratic F) : Polynomial F.Elem :=
  C p.alpha * X ^ 2 + C p.beta * X + C p.gamma

theorem Quadratic.coeff_zero (p : Quadratic F) : p.poly.coeff 0 = p.gamma := by
  simp [Quadratic.poly]

theorem Quadratic.coeff_one (p : Quadratic F) : p.poly.coeff 1 = p.beta := by
  simp [Quadratic.poly, coeff_X_pow, coeff_C]

theorem Quadratic.coeff_two (p : Quadratic F) : p.poly.coeff 2 = p.alpha := by
  simp [Quadratic.poly]

theorem Quadratic.natDegree_le (p : Quadratic F) : p.poly.natDegree ≤ 2 := by
  unfold Quadratic.poly
  compute_degree

theorem Quadratic.eval (p : Quadratic F) (y : F.Elem) :
    p.poly.eval y = p.alpha * y ^ 2 + p.beta * y + p.gamma := by
  simp [Quadratic.poly]

/-- The product of two operands is spread over the three coefficients. -/
theorem poly_quadraticOf (a b o : Affine F) :
    (quadraticOf c g a b o).poly = C (c.coeffOn g.ql) * a.poly + C (c.coeffOn g.qr) * b.poly
      + C (c.coeffOn g.qo) * o.poly + C (c.coeffOn g.qm) * (a.poly * b.poly)
      + C (c.coeffOn g.qc) := by
  simp only [Quadratic.poly, quadraticOf, Affine.poly, C_add, C_mul]
  ring

/-- An operand that takes no part may differ from its wire, but its coefficient is zero. -/
theorem weighted_poly {q : F.Elem} {x : WireId} {used : Bool} (unused : used = false → q = 0) :
    C q * (Affine.ofWire x used u (wireOn w x)).poly = C q * wireIn w u x := by
  cases used with
  | false => rw [unused rfl, C_0, zero_mul, zero_mul]
  | true =>
    rw [Affine.ofWire, if_pos rfl, wireIn]
    split <;> simp [Affine.poly]

/-- Slopes and constants give the polynomial that substitution gives. -/
theorem poly_quadraticIn : (quadraticIn c w u g).poly = c.gateIn w u g := by
  have la := weighted_poly (u := u) (w := w) (x := g.xa) fun no => (g.coeffOn_of_not_usesA c no).1
  have ma := weighted_poly (u := u) (w := w) (x := g.xa) fun no => (g.coeffOn_of_not_usesA c no).2
  have rb := weighted_poly (u := u) (w := w) (x := g.xb) fun no => (g.coeffOn_of_not_usesB c no).1
  have mb := weighted_poly (u := u) (w := w) (x := g.xb) fun no => (g.coeffOn_of_not_usesB c no).2
  have oc := weighted_poly (u := u) (w := w) (x := g.xc) (g.coeffOn_of_not_usesC c)
  rw [quadraticIn, poly_quadraticOf, Circuit.gateIn]
  linear_combination la + rb + oc + wireIn w u g.xb * ma
    + (Affine.ofWire g.xa g.usesA u (wireOn w g.xa)).poly * mb

theorem natDegree_gateIn_le : (c.gateIn w u g).natDegree ≤ 2 := by
  rw [← poly_quadraticIn]
  exact Quadratic.natDegree_le _

/-! ## Cases of a polynomial -/

namespace Quadratic

variable {p : Quadratic F}

/-- A linear polynomial has one root. -/
theorem linear (hp : F.IsPrime) (degree : p.poly.natDegree = 1) :
    p.alpha = 0 ∧ ∃ i, p.beta.inverse? = some i ∧ ∀ y, p.poly.IsRoot y ↔ y = -p.gamma * i := by
  have alpha : p.alpha = 0 := by
    rw [← p.coeff_two]
    exact coeff_eq_zero_of_natDegree_lt (by omega)
  refine ⟨alpha, ?_⟩
  cases inverse : p.beta.inverse? with
  | none =>
    have beta := PrimeField.Elem.inverse?_eq_none_iff.1 inverse
    have constant : p.poly = C p.gamma := by simp [poly, alpha, beta]
    rw [constant, natDegree_C] at degree
    cases degree
  | some i =>
    have unit := PrimeField.Elem.mul_of_inverse? hp inverse
    refine ⟨i, rfl, fun y => ?_⟩
    rw [IsRoot.def, p.eval, alpha]
    constructor
    · intro zero
      linear_combination i * zero - y * unit
    · rintro rfl
      linear_combination -p.gamma * unit

/-- A constant polynomial has no coefficient but the last, which is its value. -/
theorem constant (degree : p.poly.natDegree = 0) :
    p.alpha = 0 ∧ p.beta.inverse? = none ∧ p.poly = C p.gamma := by
  rw [PrimeField.Elem.inverse?_eq_none_iff, ← p.coeff_two, ← p.coeff_one, ← p.coeff_zero]
  exact ⟨coeff_eq_zero_of_natDegree_lt (by omega), coeff_eq_zero_of_natDegree_lt (by omega),
    eq_C_of_natDegree_eq_zero degree⟩

end Quadratic

/-! ## Solving -/

variable {s : State F} {k : UInt32}

/-- The wires that take part in a gate and have no value. -/
def State.unknowns (s : State F) (g : Gate) : List WireId :=
  g.wires.filter fun x => s.values[x.toNat]? = some none

theorem State.mem_unknowns {x : WireId} :
    x ∈ s.unknowns g ↔ x ∈ g.wires ∧ s.values[x.toNat]? = some none := by
  simp [State.unknowns]

/-- A run that ends in the state `s`, since the constraint with number `k` does not hold. -/
def EndsUnsatisfied (k : UInt32) (s : State F) (r : EStateM.Result (Error F) (State F) Unit) :
    Prop :=
  ∃ failure : Unsatisfied F, failure.constraint = k ∧ r = .error (.unsatisfied failure) s

/-- What solving a gate comes to. -/
structure GateOutcome (c : Circuit F) (k : UInt32) (g : Gate) (s : State F)
    (r : EStateM.Result (Error F) (State F) Unit) : Prop where
  /-- Two unknowns are too many. -/
  several : 2 ≤ (s.unknowns g).length → r = .error (.fatal (.multipleUnsolved k)) s
  /-- So is the square of one. -/
  square (u : WireId) : s.unknowns g = [u] → (c.gateIn s.filled u g).coeff 2 ≠ 0 →
    r = .error (.fatal (.multipleUnsolved k)) s
  /-- A linear polynomial has one root, which the unknown is set to. -/
  root (u : WireId) : s.unknowns g = [u] → (c.gateIn s.filled u g).natDegree = 1 →
    ∃ x, (∀ y, (c.gateIn s.filled u g).IsRoot y ↔ y = x) ∧ r = .ok () (s.withValue u x)
  /-- An unknown that cancels out is set to zero. -/
  free (u : WireId) : s.unknowns g = [u] → c.gateIn s.filled u g = 0 →
    r = .ok () (s.withValue u 0)
  /-- So it is if the rest of the gate is not zero, but then a plain gate fails. -/
  constant (u : WireId) : s.unknowns g = [u] → c.gateIn s.filled u g ≠ 0 →
    (c.gateIn s.filled u g).natDegree = 0 →
      (g.commitment = .plain → EndsUnsatisfied k (s.withValue u 0) r) ∧
        (g.commitment = .binds → r = .ok () (s.withValue u 0))
  /-- Without an unknown the gate is checked, if it is plain. -/
  solved : s.unknowns g = [] →
    (r = .ok () s ↔ c.gateOn s.filled g = 0 ∨ g.commitment = .binds) ∧
      (¬(c.gateOn s.filled g = 0 ∨ g.commitment = .binds) → EndsUnsatisfied k s r)
  /-- No other wire gets a value. -/
  others (i : ℕ) : (∀ u, s.unknowns g = [u] → u.toNat ≠ i) →
    (stateAfter r).values[i]? = s.values[i]?

/-- What is not unknown is solved. -/
theorem State.solved_of_unknowns (range : ∀ x ∈ g.wires, x.toNat < s.values.length) {x : WireId}
    (mem : x ∈ g.wires) (known : x ∉ s.unknowns g) : s.Solved x := by
  obtain solved | empty := State.solved_or_unsolved (range x mem)
  · exact solved
  · exact absurd (State.mem_unknowns.2 ⟨mem, empty⟩) known

theorem State.empty_of_one (one : s.unknowns g = [u]) : s.values[u.toNat]? = some none :=
  (State.mem_unknowns.1 (one ▸ List.mem_singleton_self u)).2

theorem State.solved_of_one (range : ∀ x ∈ g.wires, x.toNat < s.values.length)
    (one : s.unknowns g = [u]) (x : WireId) (mem : x ∈ g.wires) (other : x ≠ u) : s.Solved x :=
  State.solved_of_unknowns range mem (by simpa [one] using other)

theorem run_unknowns (range : ∀ x ∈ g.wires, x.toNat < s.values.length) :
    (unsolvedOf g.wires).run s = .ok (s.unknowns g) s :=
  run_unsolvedOf range

/-- Setting a wire sets it in the assignment that extends the state by zeros. -/
theorem gateOn_withValue (empty : s.values[u.toNat]? = some none) (x : F.Elem) :
    c.gateOn (s.withValue u x).filled g = (c.gateIn s.filled u g).eval x := by
  have range : u.toNat < s.filled.length := by
    rw [State.filled, List.length_map]
    exact (List.getElem?_eq_some_iff.1 empty).1
  rw [eval_gateIn range, State.filled, State.withValue, List.map_set]
  rfl

/-- A gate with one unknown, by the coefficients of its polynomial. -/
theorem run_solveGate_one (solves : g.commitment ≠ .asserts) (coeffs : c.HasCoeffs g)
    (range : ∀ x ∈ g.wires, x.toNat < s.values.length) (one : s.unknowns g = [u]) :
    (solveGate c k g).run s =
      if (quadraticIn c s.filled u g).alpha = 0 then
        match (quadraticIn c s.filled u g).beta.inverse? with
        | some i => .ok () (s.withValue u (-(quadraticIn c s.filled u g).gamma * i))
        | none => (checkIfPlain c k g).run (s.withValue u 0)
      else .error (.fatal (.multipleUnsolved k)) s := by
  have empty := State.empty_of_one one
  simp only [solveGate, if_neg solves, EStateM.run_bind, run_unknowns range, one,
    run_quadraticIn coeffs (State.solved_of_one range one)]
  by_cases alpha : (quadraticIn c s.filled u g).alpha = 0
  · simp only [alpha, ne_eq, not_true_eq_false, if_false, if_true]
    cases (quadraticIn c s.filled u g).beta.inverse? with
    | some i => simp only [run_assign, empty]
    | none => simp only [EStateM.run_bind, run_assign, empty]
  · simp only [alpha, ne_eq, not_false_eq_true, if_true, if_false]
    rfl

/-- A gate whose unknown cancels out is checked with zero in its place. -/
theorem run_solveGate_flat (solves : g.commitment ≠ .asserts) (coeffs : c.HasCoeffs g)
    (range : ∀ x ∈ g.wires, x.toNat < s.values.length) (one : s.unknowns g = [u])
    (degree : (c.gateIn s.filled u g).natDegree = 0) :
    ∃ relation : Relation F, (solveGate c k g).run s =
      (if g.commitment = .plain ∧ c.gateIn s.filled u g ≠ 0 then unsatisfied c k relation
        else pure () : Solve F Unit).run (s.withValue u 0) := by
  have empty := State.empty_of_one one
  have solved (x : WireId) (mem : x ∈ g.wires) : (s.withValue u 0).Solved x := by
    by_cases same : x = u
    · rw [same]
      exact ⟨0, withValue_value empty 0⟩
    · have known := State.solved_of_one range one x mem same
      exact known.of_fills (fills_withValue (W := .univ) (K := ∅) empty (Set.mem_univ _) 0)
  rw [← poly_quadraticIn] at degree
  obtain ⟨alpha, inverse, value⟩ := Quadratic.constant degree
  obtain ⟨relation, run⟩ := run_checkIfPlain coeffs k solved
  rw [gateOn_withValue empty, ← poly_quadraticIn, value, eval_C] at run
  refine ⟨relation, ?_⟩
  rw [run_solveGate_one solves coeffs range one, if_pos alpha, inverse, run, ← poly_quadraticIn,
    value]
  simp only [ne_eq, C_eq_zero]

theorem run_solveGate_several (solves : g.commitment ≠ .asserts)
    (range : ∀ x ∈ g.wires, x.toNat < s.values.length) (several : 2 ≤ (s.unknowns g).length) :
    (solveGate c k g).run s = .error (.fatal (.multipleUnsolved k)) s := by
  match unknowns : s.unknowns g, several with
  | x :: y :: rest, _ =>
    simp only [solveGate, if_neg solves, EStateM.run_bind, run_unknowns range, unknowns]
    rfl

theorem run_solveGate_none (solves : g.commitment ≠ .asserts) (coeffs : c.HasCoeffs g)
    (range : ∀ x ∈ g.wires, x.toNat < s.values.length) (noUnknowns : s.unknowns g = []) :
    ∃ relation : Relation F, (solveGate c k g).run s =
      (if g.commitment = .plain ∧ c.gateOn s.filled g ≠ 0 then unsatisfied c k relation
        else pure () : Solve F Unit).run s := by
  obtain ⟨relation, run⟩ := run_checkIfPlain coeffs k fun x mem =>
    State.solved_of_unknowns range mem (by simp [noUnknowns])
  refine ⟨relation, ?_⟩
  simp only [solveGate, if_neg solves, EStateM.run_bind, run_unknowns range, noUnknowns, run]

/-- No wire but a single unknown gets a value. -/
theorem values_solveGate (solves : g.commitment ≠ .asserts)
    (range : ∀ x ∈ g.wires, x.toNat < s.values.length) {i : ℕ}
    (other : ∀ u, s.unknowns g = [u] → u.toNat ≠ i) :
    (stateAfter ((solveGate c k g).run s)).values[i]? = s.values[i]? := by
  obtain same | ⟨⟨x, mem, rfl⟩, empty, -⟩ := (Writes.solveGate (K := ∅) c k g s).values.2 i
  · exact same
  · have unknown : x ∈ s.unknowns g := State.mem_unknowns.2 ⟨mem, empty⟩
    match unknowns : s.unknowns g, unknown with
    | [u], unknown => exact absurd (by rw [List.mem_singleton.1 unknown]) (other u unknowns)
    | _ :: _ :: _, _ =>
      rw [run_solveGate_several solves range (by simp [unknowns])]
      rfl

theorem EndsUnsatisfied.unsatisfied (c : Circuit F) (k : UInt32) (relation : Relation F)
    (s : State F) : EndsUnsatisfied k s ((unsatisfied c k relation).run s) :=
  ⟨_, rfl, rfl⟩

/-- Solving a gate is decided by its polynomial in the wires that are not solved. -/
theorem solveGate_exact (hp : F.IsPrime) (solves : g.commitment ≠ .asserts)
    (coeffs : c.HasCoeffs g) (range : ∀ x ∈ g.wires, x.toNat < s.values.length) :
    GateOutcome c k g s ((solveGate c k g).run s) where
  several := run_solveGate_several solves range
  square u one square := by
    rw [← poly_quadraticIn, Quadratic.coeff_two] at square
    rw [run_solveGate_one solves coeffs range one, if_neg square]
  root u one degree := by
    rw [← poly_quadraticIn] at degree ⊢
    obtain ⟨alpha, i, inverse, roots⟩ := Quadratic.linear hp degree
    refine ⟨_, roots, ?_⟩
    rw [run_solveGate_one solves coeffs range one, if_pos alpha, inverse]
  free u one zero := by
    have degree : (c.gateIn s.filled u g).natDegree = 0 := by rw [zero, natDegree_zero]
    obtain ⟨relation, run⟩ := run_solveGate_flat solves coeffs range one degree
    rw [run, if_neg fun refuted => refuted.2 zero]
    rfl
  constant u one nonzero degree := by
    obtain ⟨relation, run⟩ := run_solveGate_flat solves coeffs range one degree
    rw [run]
    refine ⟨fun plain => ?_, fun binds => ?_⟩
    · rw [if_pos ⟨plain, nonzero⟩]
      exact .unsatisfied c k relation _
    · rw [if_neg (by simp [binds])]
      rfl
  solved noUnknowns := by
    obtain ⟨relation, run⟩ := run_solveGate_none solves coeffs range noUnknowns
    rw [run]
    have checked : g.commitment ≠ .binds ↔ g.commitment = .plain := by
      cases tag : g.commitment <;> simp_all
    by_cases passes : c.gateOn s.filled g = 0 ∨ g.commitment = .binds
    · have kept : ¬(g.commitment = .plain ∧ c.gateOn s.filled g ≠ 0) := fun ⟨plain, nonzero⟩ =>
        passes.elim nonzero (checked.2 plain)
      rw [if_neg kept]
      exact ⟨iff_of_true rfl passes, fun fails => absurd passes fails⟩
    · obtain ⟨nonzero, notBound⟩ := not_or.1 passes
      rw [if_pos ⟨checked.1 notBound, nonzero⟩]
      exact ⟨iff_of_false nofun passes, fun _ => .unsatisfied c k relation s⟩
  others i other := values_solveGate solves range other

/-- The gate `2⋅x + x⋅y - x + 1 = 0`, in which `x` has three places. -/
def overlapping : Gate :=
  ⟨0, 1, 0, CoeffId.two, CoeffId.zero, CoeffId.minusOne, CoeffId.one, CoeffId.one, .plain⟩

/-- The value of `y` is known. -/
def overlappingState (y : PrimeField.tiny.Elem) : State .tiny := ⟨[none, some y], 1, [], []⟩

/-- For `y = 3` the gate is linear, for `y = -1` the unknown cancels out. -/
theorem solveGate_overlapping :
    let c := Circuit.empty .tiny .sparse
    let s := overlappingState (.ofNat 3)
    let t := overlappingState (-1)
    PrimeField.tiny.IsPrime ∧ overlapping.commitment ≠ .asserts ∧ c.HasCoeffs overlapping ∧
      (∀ x ∈ overlapping.wires, x.toNat < s.values.length) ∧
      (c.gateIn s.filled 0 overlapping).natDegree = 1 ∧
      (solveGate c 5 overlapping).run s = .ok () (s.withValue 0 (.ofNat 35)) ∧
      (c.gateIn t.filled 0 overlapping).natDegree = 0 ∧
      EndsUnsatisfied 5 (t.withValue 0 0) ((solveGate c 5 overlapping).run t) := by
  intro c s t
  have coeffs : c.HasCoeffs overlapping := by
    simp only [Circuit.HasCoeffs, Gate.coeffs, List.mem_cons, List.not_mem_nil, or_false,
      forall_eq_or_imp, forall_eq]
    decide
  have range (y : PrimeField.tiny.Elem) :
      ∀ x ∈ overlapping.wires, x.toNat < (overlappingState y).values.length := by
    have wires : overlapping.wires = [0, 1] := by decide
    simp [wires, overlappingState]
  have polyS : c.gateIn s.filled 0 overlapping = C (.ofNat 4) * X + C 1 := by
    have terms : (quadraticIn c s.filled 0 overlapping).alpha = 0 ∧
        (quadraticIn c s.filled 0 overlapping).beta = .ofNat 4 ∧
        (quadraticIn c s.filled 0 overlapping).gamma = 1 := by decide +kernel
    simp [← poly_quadraticIn, Quadratic.poly, terms]
  have polyT : c.gateIn t.filled 0 overlapping = C 1 := by
    have terms : (quadraticIn c t.filled 0 overlapping).alpha = 0 ∧
        (quadraticIn c t.filled 0 overlapping).beta = 0 ∧
        (quadraticIn c t.filled 0 overlapping).gamma = 1 := by decide +kernel
    simp [← poly_quadraticIn, Quadratic.poly, terms]
  have linear : (c.gateIn s.filled 0 overlapping).natDegree = 1 := by
    rw [polyS]
    exact natDegree_linear (by decide)
  have constant : (c.gateIn t.filled 0 overlapping).natDegree = 0 := by rw [polyT, natDegree_C]
  have nonzero : c.gateIn t.filled 0 overlapping ≠ 0 := by
    rw [polyT, Ne, C_eq_zero]
    decide
  have root : (c.gateIn s.filled 0 overlapping).IsRoot (.ofNat 35) := by
    rw [polyS, IsRoot.def, eval_add, eval_mul, eval_C, eval_C, eval_X]
    decide
  have prime := PrimeField.isPrime_tiny
  have outcomeS := solveGate_exact (k := 5) prime (by decide) coeffs (range (.ofNat 3))
  have outcomeT := solveGate_exact (k := 5) prime (by decide) coeffs (range (-1))
  obtain ⟨x, roots, run⟩ := outcomeS.root 0 rfl linear
  refine ⟨prime, by decide, coeffs, range _, linear, ?_, constant, ?_⟩
  · rw [run, (roots _).1 root]
  · exact (outcomeT.constant 0 rfl nonzero constant).1 rfl

end Solver

end CircuitWitness
