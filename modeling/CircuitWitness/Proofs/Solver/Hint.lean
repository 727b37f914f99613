import CircuitWitness.Proofs.Solver.Execution
import CircuitWitness.Solver.Hint

/-!
# Hint calls that end well

The inputs of a call are read over solved wires. Constant terms are read from the coefficients
alone, which is the same as long as the wire of one holds one. The outputs are set one after the
other, so a call that fails may have set the first of them.

Results:
* `inputValues_ok`: the inputs are those under every assignment that extends the state.
* `solveHint_solved`: the inputs of a call that ended well were solved.
* `solveHint_ok`: the outputs of the call hold the classes of what the function gave.
* `Writes.solveHint`: only outputs of the call are filled.
-/

namespace CircuitWitness.Solver

variable {F : PrimeField} {c : Circuit F} {s s' : State F}

/-- In a circuit of rank-one constraints the wire of one holds one. -/
def OneHolds (c : Circuit F) (w : List F.Elem) : Prop := c.kind = .r1cs → wireOn w oneWire = 1

theorem isConstant_iff {kind : CircuitKind} {t : Term} :
    kind.isConstant t ↔ kind = .r1cs ∧ t.wire = oneWire := by
  cases kind <;> simp [CircuitKind.isConstant, Term.isConstant]

theorem OneHolds.of_isConstant {w : List F.Elem} (one : OneHolds c w) {t : Term}
    (h : c.kind.isConstant t) : wireOn w t.wire = 1 := by
  obtain ⟨kind, wire⟩ := isConstant_iff.1 h
  rw [wire, one kind]

/-! ## Inputs -/

theorem Writes.addInputTerm {W K : Set ℕ} (c : Circuit F) (hint : HintId) (sum : F.Elem)
    (t : Term) : Writes W K (addInputTerm c hint sum t) := by
  unfold Solver.addInputTerm
  split
  · exact .pure _
  · split
    · exact (Writes.coeff c _).bind fun q => .pure _
    · refine (Writes.isSolved _).bind fun b => ?_
      dsimp only
      split
      · exact (Writes.fail _).bind fun _ => (Writes.termValue c t).bind fun x => .pure _
      · exact (Writes.termValue c t).bind fun x => .pure _

theorem addInputTerm_ok {hint : HintId} {sum x : F.Elem} {t : Term}
    (h : (addInputTerm c hint sum t).run s = .ok x s') :
    s' = s ∧ ∀ w : List F.Elem, Extends w s → OneHolds c w → x = sum + c.termOn w t := by
  unfold addInputTerm at h
  split at h
  · next zero =>
    obtain ⟨rfl, rfl⟩ := pure_ok.1 h
    exact ⟨rfl, fun w _ _ => by rw [c.termOn_zero w zero, add_zero]⟩
  · split at h
    · next constant =>
      simp only [bind_ok, coeff_ok, pure_ok] at h
      obtain ⟨q, _, ⟨rfl, range⟩, rfl, rfl⟩ := h
      refine ⟨rfl, fun w _ one => ?_⟩
      rw [Circuit.termOn, Circuit.coeffOn_eq range, one.of_isConstant constant, mul_one]
    · simp only [bind_ok, isSolved_ok] at h
      obtain ⟨b, _, ⟨rfl, -⟩, h⟩ := h
      split at h
      · simp only [bind_ok, fail_ok] at h
        obtain ⟨_, _, ⟨⟩, -⟩ := h
      · simp only [bind_ok, pure_ok] at h
        obtain ⟨y, _, value, rfl, rfl⟩ := h
        obtain ⟨rfl, -, value⟩ := termValue_ok value
        exact ⟨rfl, fun w extension _ => by rw [value w extension]⟩

theorem inputTerms_ok {hint : HintId} {e : LinearExpr} {sum x : F.Elem}
    (h : (e.foldlM (addInputTerm c hint) sum).run s = .ok x s') :
    s' = s ∧ ∀ w : List F.Elem, Extends w s → OneHolds c w → x = sum + c.exprOn w e := by
  induction e generalizing sum with
  | nil =>
    simp only [List.foldlM_nil, pure_ok] at h
    obtain ⟨rfl, rfl⟩ := h
    exact ⟨rfl, fun w _ _ => by simp⟩
  | cons t e ih =>
    rw [List.foldlM_cons, bind_ok] at h
    obtain ⟨y, _, first, rest⟩ := h
    obtain ⟨rfl, first⟩ := addInputTerm_ok first
    obtain ⟨rfl, rest⟩ := ih rest
    refine ⟨rfl, fun w extension one => ?_⟩
    rw [rest w extension one, first w extension one, Circuit.exprOn_cons, add_assoc]

theorem inputValue_ok {hint : HintId} {e : LinearExpr} {x : F.Elem}
    (h : (inputValue c hint e).run s = .ok x s') :
    s' = s ∧ ∀ w : List F.Elem, Extends w s → OneHolds c w → x = c.exprOn w e := by
  obtain ⟨rfl, sum⟩ := inputTerms_ok h
  exact ⟨rfl, fun w extension one => by rw [sum w extension one, zero_add]⟩

theorem inputValues_ok {hint : HintId} {es : List LinearExpr} {xs : List F.Elem}
    (h : (inputValues c hint es).run s = .ok xs s') :
    s' = s ∧ ∀ w : List F.Elem, Extends w s → OneHolds c w → xs = es.map (c.exprOn w) := by
  induction es generalizing xs with
  | nil =>
    simp only [inputValues, pure_ok] at h
    obtain ⟨rfl, rfl⟩ := h
    exact ⟨rfl, fun w _ _ => rfl⟩
  | cons e es ih =>
    simp only [inputValues, bind_ok, pure_ok] at h
    obtain ⟨y, _, first, ys, _, rest, rfl, rfl⟩ := h
    obtain ⟨rfl, first⟩ := inputValue_ok first
    obtain ⟨rfl, rest⟩ := ih rest
    refine ⟨rfl, fun w extension one => ?_⟩
    rw [List.map_cons, first w extension one, rest w extension one]

/-- An input term that was added up is on a solved wire, if it has a weight and is no constant. -/
theorem addInputTerm_solved {hint : HintId} {sum x : F.Elem} {t : Term}
    (h : (addInputTerm c hint sum t).run s = .ok x s') (weight : t.isZero = false)
    (noConstant : c.kind.isConstant t = false) : s.Solved t.wire := by
  simp only [addInputTerm, weight, noConstant, Bool.false_eq_true, if_false, bind_ok,
    isSolved_ok] at h
  obtain ⟨b, _, ⟨rfl, v, valueAt, rfl⟩, h⟩ := h
  cases v with
  | some v => exact ⟨v, valueAt⟩
  | none =>
    simp only [Option.isSome_none, Bool.not_false, if_true, bind_ok, fail_ok] at h
    obtain ⟨_, _, ⟨⟩, -⟩ := h

theorem inputTerms_solved {hint : HintId} {e : LinearExpr} {sum x : F.Elem}
    (h : (e.foldlM (addInputTerm c hint) sum).run s = .ok x s') :
    ∀ t ∈ e, t.isZero = false → c.kind.isConstant t = false → s.Solved t.wire := by
  induction e generalizing sum with
  | nil => exact fun t ht => absurd ht List.not_mem_nil
  | cons t e ih =>
    rw [List.foldlM_cons, bind_ok] at h
    obtain ⟨y, _, first, rest⟩ := h
    intro t' ht weight noConstant
    rcases List.mem_cons.1 ht with rfl | ht
    · exact addInputTerm_solved first weight noConstant
    · obtain ⟨rfl, -⟩ := addInputTerm_ok first
      exact ih rest t' ht weight noConstant

theorem inputValues_solved {hint : HintId} {es : List LinearExpr} {xs : List F.Elem}
    (h : (inputValues c hint es).run s = .ok xs s') :
    ∀ t ∈ es.flatten, t.isZero = false → c.kind.isConstant t = false → s.Solved t.wire := by
  induction es generalizing xs with
  | nil => exact fun t ht => absurd ht List.not_mem_nil
  | cons e es ih =>
    simp only [inputValues, bind_ok, pure_ok] at h
    obtain ⟨y, _, first, ys, _, rest, rfl, rfl⟩ := h
    obtain ⟨rfl, -⟩ := inputValue_ok first
    intro t ht weight noConstant
    rw [List.flatten_cons] at ht
    rcases List.mem_append.1 ht with ht | ht
    · exact inputTerms_solved first t ht weight noConstant
    · exact ih rest t ht weight noConstant

theorem Writes.inputValues {W K : Set ℕ} (c : Circuit F) (hint : HintId)
    (es : List LinearExpr) : Writes W K (inputValues c hint es) := by
  induction es with
  | nil => exact .pure _
  | cons e es ih =>
    exact (Writes.foldlM (Writes.addInputTerm c hint) e 0).bind fun x => ih.bind fun xs => .pure _

/-! ## Outputs -/

theorem Writes.assignAll {K : Set ℕ} (l : List (WireId × Nat)) :
    Writes (F := F) (places (l.map Prod.fst)) K (assignAll l) := by
  induction l with
  | nil => exact .pure _
  | cons e l ih =>
    have sub : places (l.map Prod.fst) ⊆ places ((e :: l).map Prod.fst) := by
      rintro i ⟨x, hx, rfl⟩
      exact ⟨x, List.mem_cons_of_mem _ hx, rfl⟩
    exact (Writes.assign (mem_places.2 (by simp)) _).bind fun _ => ih.mono sub subset_rfl

theorem assignAll_ok {outputs : List WireId} {ns : List Nat} {u : Unit}
    (same : outputs.length = ns.length)
    (h : (assignAll (F := F) (outputs.zip ns)).run s = .ok u s') :
    outputs.map (fun x => s'.values[x.toNat]?) = ns.map fun n => some (some (.ofNat n)) := by
  induction outputs generalizing ns s with
  | nil =>
    obtain rfl := List.eq_nil_of_length_eq_zero same.symm
    rfl
  | cons x outputs ih =>
    obtain _ | ⟨n, ns⟩ := ns
    · simp at same
    · simp only [List.zip_cons_cons, assignAll, bind_ok, assign_ok] at h
      obtain ⟨_, _, ⟨empty, rfl⟩, rest⟩ := h
      have filled := withValue_value empty (.ofNat n)
      have later := (Writes.assignAll (K := ∅) _).ok rest
      rw [List.map_cons, List.map_cons, later.values.keeps filled, ih (by simpa using same) rest]

/-! ## Calls -/

/-- A call fills outputs of its own. -/
theorem Writes.solveHint {K : Set ℕ} (c : Circuit F) (hints : HintRegistry) (h : HintCall) :
    Writes (places h.outputs) K (solveHint c hints h) := by
  unfold Solver.solveHint
  split
  · exact fun s => .refl _ K s
  · refine (Writes.inputValues c _ _).bind fun inputs => ?_
    dsimp only
    split
    · exact fun s => .refl _ K s
    · next outputs _ =>
      refine (Writes.assignAll _).mono ?_ subset_rfl
      rintro i ⟨x, hx, rfl⟩
      obtain ⟨⟨y, n⟩, mem, rfl⟩ := List.mem_map.1 hx
      exact mem_places.2 (List.of_mem_zip mem).1

theorem length_outputs {f : HintFunction} {modulus n : Nat} {inputs outputs : List Nat}
    (h : f.outputs modulus inputs n = .ok outputs) : outputs.length = n := by
  unfold HintFunction.outputs at h
  cases result : f.call modulus inputs n (Vector.replicate n 0) with
  | error e =>
    rw [result] at h
    cases h
  | ok v =>
    rw [result] at h
    obtain rfl := Except.ok.inj h
    exact v.length_toList

/-- After a call that ended well its outputs are solved, and every assignment that extends the
    state respects the call. -/
theorem solveHint_ok {hints : HintRegistry} {h : HintCall} {u : Unit}
    (run : (solveHint c hints h).run s = .ok u s') :
    (∀ x ∈ h.outputs, s'.Solved x) ∧ ∀ w : List F.Elem, Extends w s' → OneHolds c w →
      c.HintHolds hints w h := by
  have later := (Writes.solveHint (K := ∅) c hints h).ok run
  unfold solveHint at run
  split at run
  · cases run
  · next hint found =>
    obtain ⟨inputs, _, values, call⟩ := bind_ok.1 run
    obtain ⟨rfl, values⟩ := inputValues_ok values
    dsimp only at call
    split at call
    · cases call
    · next outputs called =>
      have filled := assignAll_ok (length_outputs called).symm call
      refine ⟨fun x hx => ?_, fun w extension one => ⟨hint, outputs, found, ?_, ?_⟩⟩
      · have mem := List.mem_map_of_mem (f := fun x => s'.values[x.toNat]?) hx
        rw [filled, List.mem_map] at mem
        obtain ⟨n, -, value⟩ := mem
        exact ⟨_, value.symm⟩
      · rw [values w (extension.of_fills later) one, List.map_map] at called
        exact called
      · apply List.ext_getElem (by rw [List.length_map, List.length_map, length_outputs called])
        intro i hi hi'
        have filledAt := congrArg (fun l => l[i]?) filled
        rw [List.length_map] at hi hi'
        simp only [List.getElem?_map, List.getElem?_eq_getElem hi, List.getElem?_eq_getElem hi',
          Option.map_some, Option.some.injEq] at filledAt
        rw [List.getElem_map, List.getElem_map]
        exact extension _ _ filledAt

/-- A hint that ended well found its inputs solved. -/
theorem solveHint_solved {hints : HintRegistry} {h : HintCall} {u : Unit}
    (run : (solveHint c hints h).run s = .ok u s') :
    ∀ t ∈ h.terms, t.isZero = false → c.kind.isConstant t = false → s.Solved t.wire := by
  unfold solveHint at run
  split at run
  · cases run
  · obtain ⟨inputs, _, values, -⟩ := bind_ok.1 run
    exact inputValues_solved values

end CircuitWitness.Solver
