import CircuitWitness.Proofs.Solver.Completeness

/-!
# Circuits that meet no fault

A circuit is well shaped if each of its constraints has one unknown at most when it is added, and
can be solved for it, if hints read what is known by then, and if every internal wire is defined.
Level by level, an instruction of such a circuit finds solved what was known before it, and finds
unsolved what it defines. So it ends well, or fails because of the values at hand: a hint cannot
answer, or a constraint does not hold. This is so for every witness, also where a factor vanishes or
an unknown cancels out.

Results:
* `Built.hasShape_apply`: the shape of an instruction is the same from its addition on.
* `solveR1C_faultless`, `solveGate_faultless`, `solveHint_faultless`: what an operation needs in
  order to meet no fault.
* `Expects.faultless`: an instruction of a well-shaped circuit has this.
* `expects_of_run`: what each instruction finds in a run through the levels.
* `solve_faultless`: an attempt to solve a well-shaped circuit meets no fault.
-/

namespace CircuitWitness

variable {F : PrimeField} {c : Circuit F}

namespace Circuit

/-! ## Shapes -/

/-- A constraint has one unknown at most. In a rank-one constraint it has a weight. In a gate it is
    not both factors of a product with a weight, and there is none if the gate asserts a committed
    value. A hint reads what is known. -/
def HasShape (c : Circuit F) (p : ℕ) : Operation → Prop
  | .r1c r => (r.terms.filter fun t => ¬ c.KnownBefore p t.wire).length ≤ 1 ∧
    ∀ t ∈ r.terms, t.isZero → c.KnownBefore p t.wire
  | .gate g => (g.wires.filter fun x => ¬ c.KnownBefore p x).length ≤ 1 ∧
    (g.qm ≠ CoeffId.zero → g.xa = g.xb → c.KnownBefore p g.xa) ∧ c.Needs p (.gate g)
  | .hint call => c.Needs p (.hint call)

/-- Every internal wire is defined, and every instruction has a shape in which it can be solved. -/
structure WellShaped (c : Circuit F) : Prop where
  covers : ∀ i, c.inputCount ≤ i → i < c.wireCount → ∃ p x, c.Defines p x ∧ x.toNat = i
  shaped : ∀ p op, c.operationAt p = some op → c.HasShape p op

instance (p : ℕ) : (op : Operation) → Decidable (c.HasShape p op)
  | .r1c r => inferInstanceAs (Decidable (_ ∧ ∀ t ∈ r.terms, _ → _))
  | .gate g => inferInstanceAs (Decidable (_ ∧ (_ → _ → _) ∧ c.Needs p (.gate g)))
  | .hint call => inferInstanceAs (Decidable (c.Needs p (.hint call)))

instance : Decidable c.WellShaped :=
  decidable_of_iff ((∀ i < c.wireCount, c.inputCount ≤ i → (UInt32.ofNat i).toNat = i ∧
        ∃ p < c.instructions.length, c.Defines p (UInt32.ofNat i)) ∧
      ∀ p < c.instructions.length, ∀ op ∈ c.operationAt p, c.HasShape p op)
    ⟨fun ⟨covers, shaped⟩ => ⟨fun i low high => exists_defines_iff.2 (covers i high low),
        fun p op opAt => shaped p (lt_of_operationAt opAt) op opAt⟩,
      fun h => ⟨fun i high low => exists_defines_iff.1 (h.covers i low high),
        fun p _ op opAt => h.shaped p op opAt⟩⟩

theorem WellShaped.readsKnown (h : c.WellShaped) : c.ReadsKnown := by
  intro p op opAt
  have shape := h.shaped p op opAt
  cases op with
  | r1c r => trivial
  | gate g => exact shape.2.2
  | hint call => exact shape

/-! ## Shapes while a circuit is built -/

variable {c' : Circuit F} {level : ℕ → ℕ} {op : Operation} {p : ℕ} {x : WireId}

theorem Leveled.knownBefore_grown (h : c.Leveled level) (grown : Grown c c')
    (range : x.toNat < c.wireCount) : c'.KnownBefore p x ↔ c.KnownBefore p x := by
  by_cases input : x.toNat < c.inputCount
  · have later : x.toNat < c'.inputCount := Nat.lt_of_lt_of_le input grown.inputs
    exact ⟨fun _ => .inl input, fun _ => .inl later⟩
  · have same := grown.inputCount_eq (Nat.not_lt.1 input) range
    unfold KnownBefore
    rw [same]
    refine or_congr Iff.rfl (exists_congr fun q => and_congr_right fun _ => ?_)
    exact h.defines_grown grown q (by omega)

theorem Extended.knownBefore {noted : List WireId} (ext : Extended c op noted c')
    (h : c.Leveled level) (hp : p ≤ c.instructions.length) :
    c'.KnownBefore p x ↔ c.KnownBefore p x := by
  unfold KnownBefore
  rw [ext.inputs]
  refine or_congr Iff.rfl (exists_congr fun q => and_congr_right fun lt => ?_)
  exact ext.defines h (Nat.lt_of_lt_of_le lt hp) x

/-- Later operations do not change what is known before an instruction. -/
theorem Built.knownBefore_apply (built : c.Built) {e : Edit F} (automatic : e.isAutomatic)
    (small : (e.apply c).instructions.length ≤ wordRange) (hp : p ≤ c.instructions.length)
    (range : x.toNat < c.wireCount) : (e.apply c).KnownBefore p x ↔ c.KnownBefore p x := by
  have outcome := e.apply_outcome c
  obtain ⟨level, leveled⟩ := built.leveled (Nat.le_trans (length_instructions_le outcome) small)
  obtain grown | ⟨schedule, levels, rfl, -⟩ | ⟨op, noted, id, b, words, names, addition, same⟩ :=
    outcome_cases outcome
  · exact leveled.knownBefore_grown grown range
  · cases automatic
  · rw [same] at small ⊢
    exact (addition.extended (leveled.buffer_lt small) names).knownBefore leveled hp

theorem hasShape_congr (same : ∀ x ∈ op.reads, c'.KnownBefore p x ↔ c.KnownBefore p x) :
    c'.HasShape p op ↔ c.HasShape p op := by
  have unknown {α : Type} (wire : α → WireId) (l : List α) (mem : ∀ a ∈ l, wire a ∈ op.reads) :
      l.filter (fun a => ¬ c'.KnownBefore p (wire a))
        = l.filter (fun a => ¬ c.KnownBefore p (wire a)) :=
    List.filter_congr fun a ha => decide_eq_decide.2 (not_congr (same _ (mem a ha)))
  cases op with
  | r1c r =>
    have reads (t : Term) (ht : t ∈ r.terms) : t.wire ∈ (Operation.r1c r).reads :=
      List.mem_map_of_mem ht
    simp only [HasShape, unknown Term.wire r.terms reads]
    refine and_congr_right fun _ => forall₂_congr fun t ht => ?_
    rw [same _ (reads t ht)]
  | gate g =>
    have few := unknown id g.wires fun x hx => hx
    simp only [id] at few
    simp only [HasShape, few]
    refine and_congr_right fun _ => and_congr ?_ ?_
    · refine imp_congr_right fun weight => imp_congr_right fun _ => same _ ?_
      exact Gate.mem_wires.2 (.inl ⟨by simp [Gate.usesA, weight], rfl⟩)
    · exact imp_congr_right fun _ => forall₂_congr fun x hx => same x hx
  | hint call =>
    exact forall₂_congr fun t ht => imp_congr_right fun _ => same _ (List.mem_map_of_mem ht)

/-- So the shape of an instruction can be judged when it is added, and stays what it is then. -/
theorem Built.hasShape_apply (built : c.Built) {e : Edit F} (automatic : e.isAutomatic)
    (small : (e.apply c).instructions.length ≤ wordRange) (hp : p ≤ c.instructions.length)
    (inRange : c.InRange op) : (e.apply c).HasShape p op ↔ c.HasShape p op := by
  refine hasShape_congr fun x hx => built.knownBefore_apply automatic small hp ?_
  cases op with
  | r1c r =>
    obtain ⟨t, ht, rfl⟩ := List.mem_map.1 hx
    exact (inRange t ht).2
  | gate g => exact inRange.1 x (mem_wires_cases hx)
  | hint call =>
    obtain ⟨t, ht, rfl⟩ := List.mem_map.1 hx
    exact (inRange.1 t ht).2

end Circuit

namespace Solver

variable {α : Type} {s s' s₀ t : State F} {hints : HintRegistry} {level : ℕ → ℕ}

/-! ## Results without a fault -/

/-- A result that shows no fault of the circuit. -/
def Faultless (r : EStateM.Result (Error F) (State F) α) : Prop :=
  ∀ e s', r = .error e s' → e.isFatal = false

theorem Faultless.ok (a : α) (s : State F) : Faultless (.ok a s) := by
  intro e s' same
  cases same

theorem Faultless.error {e : Error F} (h : e.isFatal = false) (s : State F) :
    Faultless (.error e s : EStateM.Result (Error F) (State F) α) := by
  intro e' s' same
  obtain ⟨rfl, -⟩ := EStateM.Result.error.inj same
  exact h

theorem Faultless.unsatisfied (c : Circuit F) (k : UInt32) (r : Relation F) (s : State F) :
    Faultless ((unsatisfied c k r : Solve F α).run s) :=
  .error rfl s

/-- Errors of the same gist show a fault or show none. -/
theorem isFatal_of_gist {e e' : Error F} (h : e.gist = e'.gist) : e.isFatal = e'.isFatal := by
  have same (e : Error F) : e.gist.isFatal = e.isFatal := by
    cases e <;> rfl
  rw [← same e, h, same e']

theorem Faultless.of_similar {R K : Set ℕ} {r r' : EStateM.Result (Error F) (State F) α}
    (h : Faultless r') (similar : Similar R K r r') : Faultless r := by
  cases similar with
  | ok agree => exact .ok _ _
  | error gist => exact .error (by rw [isFatal_of_gist gist]; exact h _ _ rfl) _

/-! ## Rank-one constraints -/

/-- A wire can be found from its term if the coefficient is not the zero entry. -/
theorem exists_wireOfTerm (hp : F.IsPrime) {t : Term} (range : c.HasTerm t)
    (weight : t.isZero = false) (x : F.Elem) (s : State F) :
    ∃ y, (wireOfTerm x t.coeff (c.coeffOn t.coeff)).run s = .ok y s := by
  have nonzero : t.coeff ≠ CoeffId.zero := by simpa [Term.isZero] using weight
  have slope := Circuit.coeffOn_ne_zero range.1 nonzero
  cases inverse : (c.coeffOn t.coeff).inverse? with
  | none => exact absurd (PrimeField.Elem.inverse?_eq_none_iff.1 inverse) slope
  | some i =>
    refine ⟨x * i, wireOfTerm_run hp nonzero (Circuit.get?_coeffOn range.1) slope ?_ s⟩
    linear_combination x * PrimeField.Elem.mul_of_inverse? hp inverse

/-- A constraint with one unsolved term at most meets no fault if this term has a weight. -/
theorem solveR1C_faultless (hp : F.IsPrime) {constraint : UInt32} {r : R1C}
    (range : ∀ t ∈ r.terms, c.HasTerm t) (size : s.values.length = c.wireCount)
    (few : (unsolvedTerms s r.terms).length ≤ 1)
    (weights : ∀ t ∈ unsolvedTerms s r.terms, t.isZero = false)
    (empty : s.rows[constraint.toNat]? = some none) :
    Faultless ((solveR1C c constraint r).run s) := by
  obtain ⟨p, scanned, -⟩ := scan_run constraint range size few
  obtain ⟨-, -, -, origin⟩ := scan_ok scanned
  cases found : p.unknown with
  | none =>
    by_cases product : p.row.Holds
    · rw [run_solveR1C_solved scanned found product empty]
      exact .ok _ _
    · have differ : p.row.a * p.row.b ≠ p.row.c := product
      have run : ∃ e : Error F, e.isFatal = false ∧
          (solveR1C c constraint r).run s = .error e s := by
        simp only [solveR1C, EStateM.run_bind, scanned, found, differ, ne_eq, not_false_eq_true,
          if_true]
        exact ⟨_, rfl, rfl⟩
      obtain ⟨e, mild, run⟩ := run
      rw [run]
      exact .error mild s
  | some u =>
    obtain ⟨side, t⟩ := u
    obtain ⟨mem, unsolved⟩ := origin _ found
    have inRange := range t mem
    cases missing : p.row.missing? side with
    | none =>
      simp only [solveR1C, EStateM.run_bind, scanned, found, missing]
      exact .unsatisfied c constraint _ s
    | some x =>
      have weight := weights t (List.mem_filter.2 ⟨mem, by simpa using unsolved⟩)
      obtain ⟨y, wire⟩ := exists_wireOfTerm hp inRange weight x s
      rw [run_solveR1C_unknown scanned found missing inRange wire unsolved empty]
      exact .ok _ _

/-! ## Gates -/

/-- A gate whose wires are solved holds or is unsatisfied. -/
theorem checkIfPlain_faultless {g : Gate} (coeffs : c.HasCoeffs g) (constraint : UInt32)
    (solved : ∀ x ∈ g.wires, s.Solved x) :
    Faultless ((checkIfPlain c constraint g).run s) := by
  obtain ⟨relation, run⟩ := run_checkIfPlain coeffs constraint solved
  rw [run]
  split
  · exact .unsatisfied c constraint _ s
  · exact .ok _ _

/-- A gate is linear in its one unsolved wire, unless this is squared. -/
theorem quadraticIn_alpha {g : Gate} {u : WireId} (w : List F.Elem)
    (square : g.qm ≠ CoeffId.zero → g.xa = g.xb → g.xa ≠ u) : (quadraticIn c w u g).alpha = 0 := by
  by_cases weight : g.qm = CoeffId.zero
  · simp only [quadraticIn, quadraticOf, weight, Circuit.coeffOn_zero, zero_mul]
  · have slope {x : WireId} (used : Bool) (other : x ≠ u) :
        (Affine.ofWire x used u (wireOn w x)).slope = 0 := by
      unfold Affine.ofWire
      rw [if_neg other]
      cases used <;> rfl
    by_cases first : g.xa = u
    · have second : g.xb ≠ u := fun second => square weight (first.trans second.symm) first
      simp only [quadraticIn, quadraticOf, slope _ second, mul_zero]
    · simp only [quadraticIn, quadraticOf, slope _ first, mul_zero, zero_mul]

/-- A gate with one unsolved wire at most meets no fault if this wire is not squared. -/
theorem solveGate_faultless {g : Gate} (coeffs : c.HasCoeffs g) (constraint : UInt32)
    (range : ∀ x ∈ g.wires, x.toNat < s.values.length)
    (few : (g.wires.filter fun x => s.values[x.toNat]? = some none).length ≤ 1)
    (square : g.qm ≠ CoeffId.zero → g.xa = g.xb → s.Solved g.xa) :
    Faultless ((solveGate c constraint g).run s) := by
  have solved (x : WireId) (hx : x ∈ g.wires)
      (other : x ∉ g.wires.filter fun x => s.values[x.toNat]? = some none) : s.Solved x := by
    obtain solved | place := State.solved_or_unsolved (range x hx)
    · exact solved
    · exact absurd (List.mem_filter.2 ⟨hx, by simpa using place⟩) other
  unfold solveGate
  split
  · exact .ok _ _
  · rw [EStateM.run_bind, run_unsolvedOf range]
    generalize unsolved : (g.wires.filter fun x => s.values[x.toNat]? = some none) = us
      at few solved
    match us, few with
    | [], _ => exact checkIfPlain_faultless coeffs constraint fun x hx => solved x hx (by simp)
    | [u], _ =>
      have empty : s.values[u.toNat]? = some none := by
        have mem : u ∈ g.wires.filter fun x => s.values[x.toNat]? = some none := by simp [unsolved]
        simpa using (List.mem_filter.1 mem).2
      have others (x : WireId) (hx : x ∈ g.wires) (other : x ≠ u) : s.Solved x :=
        solved x hx (by simpa using other)
      have alpha := quadraticIn_alpha (c := c) (u := u) s.filled fun weight same here => by
        obtain ⟨v, filled⟩ := square weight same
        rw [here, empty] at filled
        cases filled
      simp only [EStateM.run_bind, run_quadraticIn coeffs others, alpha, ne_eq,
        not_true_eq_false, if_false]
      cases (quadraticIn c s.filled u g).beta.inverse? with
      | some i =>
        simp only [run_assign, empty]
        exact .ok _ _
      | none =>
        simp only [EStateM.run_bind, run_assign, empty]
        -- Now all wires of the gate are solved.
        refine checkIfPlain_faultless coeffs constraint fun x hx => ?_
        by_cases here : x = u
        · rw [here]
          exact ⟨0, withValue_value empty 0⟩
        · have later := fills_withValue (W := .univ) (K := ∅) empty (Set.mem_univ _) 0
          exact (others x hx here).of_fills later

/-! ## Hints -/

/-- A call meets no fault if what it reads is solved and what it sets is not. -/
theorem solveHint_faultless (hints : HintRegistry) {call : HintCall}
    (range : ∀ t ∈ call.terms, c.HasTerm t) (size : s.values.length = c.wireCount)
    (solved : ∀ t ∈ call.terms, t.isZero = false → s.Solved t.wire)
    (unsolved : ∀ x ∈ call.outputs, s.values[x.toNat]? = some none) (once : call.outputs.Nodup) :
    Faultless ((solveHint c hints call).run s) := by
  unfold solveHint
  split
  · exact .error rfl s
  · next hint found =>
    simp only [EStateM.run_bind, inputValues_run call.hint range size solved]
    split
    · exact .error rfl s
    · next outputs called =>
      obtain ⟨s', run, -⟩ := assignAll_run outputs unsolved once
      rw [run]
      exact .ok _ _

/-! ## Instructions -/

/-- A state in which an instruction may run: what it reads is solved as far as it was known before,
    what it defines is not, and its row is empty. -/
structure Expects (c : Circuit F) (p : ℕ) (s : State F) : Prop where
  size : s.values.length = c.wireCount
  known : ∀ op x, c.operationAt p = some op → x ∈ op.reads → c.KnownBefore p x → s.Solved x
  defined : ∀ x, c.Defines p x → ¬ s.Solved x
  rows : ∀ k ∈ c.ownRow p, s.rows[k]? = some none

/-- What is unsolved was not known. -/
theorem Expects.not_known {p : ℕ} {op : Operation} {x : WireId} (h : Expects c p s)
    (opAt : c.operationAt p = some op) (mem : x ∈ op.reads)
    (unsolved : s.values[x.toNat]? = some none) : ¬ c.KnownBefore p x := by
  intro known
  obtain ⟨v, filled⟩ := h.known op x opAt mem known
  rw [filled] at unsolved
  cases unsolved

/-- So there are no more wires unsolved than were unknown. -/
theorem Expects.unsolved_le {α : Type} {p : ℕ} {op : Operation} (h : Expects c p s)
    (opAt : c.operationAt p = some op) (wire : α → WireId) {l : List α}
    (mem : ∀ a ∈ l, wire a ∈ op.reads) :
    (l.filter fun a => s.values[(wire a).toNat]? = some none).length
      ≤ (l.filter fun a => ¬ c.KnownBefore p (wire a)).length := by
  rw [← List.countP_eq_length_filter, ← List.countP_eq_length_filter]
  refine List.countP_mono_left fun a ha unsolved => ?_
  exact decide_eq_true (h.not_known opAt (mem a ha) (of_decide_eq_true unsolved))

/-- An instruction of a well-shaped circuit meets no fault where it finds what it expects. -/
theorem Expects.faultless (hp : F.IsPrime) (leveled : c.Leveled level) (shaped : c.WellShaped)
    {index : UInt32} (bound : index.toNat < c.instructions.length)
    (h : Expects c index.toNat s) : Faultless ((solveInstruction c hints index).run s) := by
  obtain ⟨i, op, b, words, found, opAt, parts, inRange⟩ := leveled.decoded bound
  have shape := shaped.shaped _ op opAt
  have size := h.size
  rw [solveInstruction_eq found parts]
  cases op with
  | r1c r =>
    obtain ⟨few, weights⟩ := shape
    have reads (t : Term) (ht : t ∈ r.terms) : t.wire ∈ (Operation.r1c r).reads :=
      List.mem_map_of_mem ht
    refine solveR1C_faultless hp inRange size ?_ (fun t ht => ?_) ?_
    · exact Nat.le_trans (h.unsolved_le opAt Term.wire reads) few
    · obtain ⟨mem, unsolved⟩ := List.mem_filter.1 ht
      have unknown := h.not_known opAt (reads t mem) (of_decide_eq_true unsolved)
      exact Bool.eq_false_iff.2 fun zero => unknown (weights t mem zero)
    · exact h.rows _ ⟨i, r, found, parts.operation, rfl⟩
  | gate g =>
    obtain ⟨few, square, -⟩ := shape
    obtain ⟨wires, coeffs⟩ := inRange
    have reads (x : WireId) (hx : x ∈ g.wires) : x ∈ (Operation.gate g).reads := hx
    have generic : Faultless ((solveGate c i.constraint g).run s) := by
      refine solveGate_faultless coeffs i.constraint (fun x hx => ?_) ?_ fun weight same => ?_
      · rw [size]
        exact wires x (Circuit.mem_wires_cases hx)
      · exact Nat.le_trans (h.unsolved_le opAt id reads) few
      · have used : g.usesA = true := by simp [Gate.usesA, weight]
        exact h.known _ _ opAt (Gate.mem_wires.2 (.inl ⟨used, rfl⟩)) (square weight same)
    exact generic.of_similar (solvePackedGate_similar hp parts.read.2 coeffs (by rwa [size]))
  | hint call =>
    obtain ⟨terms, outputs⟩ := inRange
    refine solveHint_faultless hints terms size (fun t ht weight => ?_) (fun x hx => ?_)
      (leveled.once _ call opAt)
    · exact h.known _ _ opAt (List.mem_map_of_mem ht) (shape t ht weight)
    · exact unsolved_of_not_solved size (outputs x hx)
        (h.defined x (leveled.outputs _ call x opAt hx))

/-! ## Runs -/

variable {witness : List F.Elem}

/-- A run fills nothing but what its instructions may fill. -/
theorem runInstructions_fills {l : List UInt32} {u : Unit}
    (run : (runInstructions c hints l).run s = .ok u s') :
    Fills { i | ∃ index ∈ l, i ∈ c.fillable index.toNat }
      { k | ∃ index ∈ l, k ∈ c.ownRow index.toNat } s s' := by
  induction l generalizing s with
  | nil =>
    obtain ⟨-, rfl⟩ := pure_ok.1 run
    exact .refl _ _ s'
  | cons index l ih =>
    obtain ⟨_, s₁, first, rest⟩ := bind_ok.1 run
    have here := (Writes.solveInstruction c hints index).ok first
    have later := ih rest
    refine (here.mono ?_ ?_).trans (later.mono ?_ ?_)
    · intro i fill
      exact ⟨index, List.mem_cons_self, fill⟩
    · intro k own
      exact ⟨index, List.mem_cons_self, own⟩
    · rintro i ⟨q, hq, fill⟩
      exact ⟨q, List.mem_cons_of_mem index hq, fill⟩
    · rintro k ⟨q, hq, own⟩
      exact ⟨q, List.mem_cons_of_mem index hq, own⟩

/-- At the start no internal wire is solved. -/
theorem input_of_start (reachable : c.Reachable) (started : start c hints witness = .ok s)
    {x : WireId} (solved : s.Solved x) : x.toNat < c.inputCount := by
  obtain ⟨size, -, fills⟩ := start_ok started
  obtain ⟨v, filled⟩ := solved
  have mem := mem_of_blank fills filled
  rw [← length_inputsOf size fun kind => Circuit.inputCount_pos (reachable.oneName kind)]
  exact mem

/-- At the start the row of an instruction is empty. -/
theorem ownRow_of_start (wf : c.WellFormed) (small : c.instructions.length ≤ wordRange)
    (started : start c hints witness = .ok s) {p k : ℕ} (own : k ∈ c.ownRow p) :
    s.rows[k]? = some none := by
  obtain ⟨i, r, found, decoded, rfl⟩ := own
  have before := c.constraintsBefore_le p
  obtain ⟨bound, -⟩ := List.getElem?_eq_some_iff.1 found
  refine row_of_start (wf.r1cs_of_r1c (List.mem_of_getElem? found) decoded rfl) started ?_
  rw [wf.number_toNat found (by omega)]
  exact Circuit.constraintsBefore_lt wf found (Circuit.readsAs_r1cOf decoded).isConstraint

/-- An instruction that has run left the wires solved that it defines. -/
theorem Progress.solved_of_defines (hp : F.IsPrime) (shaped : c.WellShaped) {done : List UInt32}
    {index : UInt32} {x : WireId} (progress : Progress c hints done s s') (ran : index ∈ done)
    (defines : c.Defines index.toNat x) : s'.Solved x := by
  obtain ⟨t, t', ended, after⟩ := progress.ran index ran
  exact (solveInstruction_settles hp ended (shaped.readsKnown.fillable defines)).of_fills after

section Schedule

variable {done rest : List UInt32} {index q : UInt32}

/-- What stands before an instruction in the schedule is another one, on no higher level. -/
theorem level_le_of_before (leveled : c.Leveled level) (small : c.instructions.length ≤ wordRange)
    (split : c.levels.schedule.flatten = done ++ index :: rest) (before : q ∈ done) :
    level q.toNat ≤ level index.toNat ∧ q ≠ index := by
  have sorted := schedule_pairwise small leveled.scheduled
  rw [split, List.pairwise_append] at sorted
  obtain ⟨-, -, below⟩ := sorted
  exact below q before index List.mem_cons_self

/-- What is on a lower level than an instruction stands before it in the schedule. -/
theorem before_of_level_lt (leveled : c.Leveled level) (small : c.instructions.length ≤ wordRange)
    (split : c.levels.schedule.flatten = done ++ index :: rest)
    (bound : q.toNat < c.instructions.length) (lower : level q.toNat < level index.toNat) :
    q ∈ done := by
  have listed : q ∈ done ++ index :: rest := by
    rw [← split]
    exact (mem_schedule small leveled.scheduled).2 bound
  have sorted := schedule_pairwise small leveled.scheduled
  rw [split, List.pairwise_append, List.pairwise_cons] at sorted
  obtain ⟨-, ⟨above, -⟩, -⟩ := sorted
  obtain before | last := List.mem_append.1 listed
  · exact before
  · obtain rfl | after := List.mem_cons.1 last
    · exact absurd lower (Nat.lt_irrefl _)
    · exact absurd lower (Nat.not_lt.2 (above q after).1)

/-- What an instruction defines is not filled by those before it. -/
theorem not_fillable_of_before (leveled : c.Leveled level)
    (small : c.instructions.length ≤ wordRange)
    (split : c.levels.schedule.flatten = done ++ index :: rest) {x : WireId}
    (defines : c.Defines index.toNat x) (before : q ∈ done) : x.toNat ∉ c.fillable q.toNat := by
  intro fill
  obtain ⟨notHigher, other⟩ := level_le_of_before leveled small split before
  have later : index.toNat < q.toNat := by
    by_contra earlier
    have apart : q.toNat ≠ index.toNat := fun same => other (UInt32.toNat_inj.1 same)
    exact defines.2.2 q.toNat (by omega) (Circuit.touches_of_fillable fill)
  have higher := level_lt_of_later leveled later (Circuit.fillable_subset _ fill) defines
  omega

end Schedule

/-- Level by level, each instruction of a well-shaped circuit finds what it expects. -/
theorem expects_of_run (hp : F.IsPrime) (reachable : c.Reachable) (leveled : c.Leveled level)
    (small : c.instructions.length ≤ wordRange) (shaped : c.WellShaped)
    (started : start c hints witness = .ok s₀) {done rest : List UInt32} {index : UInt32}
    (split : c.levels.schedule.flatten = done ++ index :: rest)
    (run : (runInstructions c hints done).run s₀ = .ok () s) : Expects c index.toNat s := by
  have begun := start_begun started
  have fills := runInstructions_fills run
  refine ⟨by rw [fills.values.1, begun.size], fun op x opAt mem known => ?_, fun x defines => ?_,
    fun k own => ?_⟩
  · obtain input | ⟨q, lt, defines⟩ := known
    · exact (begun.inputs x input).of_fills fills
    · have bound := Nat.lt_trans lt (Circuit.lt_of_operationAt opAt)
      have word : (UInt32.ofNat q).toNat = q := toNat_word (Nat.lt_of_lt_of_le bound small)
      have lower := leveled.order _ op x opAt mem q lt defines
      rw [← word] at bound lower defines
      exact (runInstructions_ok run).solved_of_defines hp shaped
        (before_of_level_lt leveled small split bound lower) defines
  · rintro ⟨v, filled⟩
    have untouched : x.toNat ∉ { i | ∃ q ∈ done, i ∈ c.fillable q.toNat } := fun ⟨q, ran, fill⟩ =>
      not_fillable_of_before leveled small split defines ran fill
    rw [fills.values.outside untouched] at filled
    have input := input_of_start reachable started ⟨v, filled⟩
    have internal := defines.1
    omega
  · have unfilled : k ∉ { k | ∃ q ∈ done, k ∈ c.ownRow q.toNat } := by
      rintro ⟨q, ran, own'⟩
      have same := Circuit.ownRow_injective reachable.wellFormed small own' own
      exact (level_le_of_before leveled small split ran).2 (UInt32.toNat_inj.1 same)
    rw [fills.rows.outside unfilled]
    exact ownRow_of_start reachable.wellFormed small started own

/-! ## Attempts -/

/-- After all levels of a well-shaped circuit every wire has a value. -/
theorem values_of_run (hp : F.IsPrime) (leveled : c.Leveled level)
    (small : c.instructions.length ≤ wordRange) (inputs : c.inputCount ≤ wordRange)
    (shaped : c.WellShaped) (begun : Begun c s)
    (progress : Progress c hints c.levels.schedule.flatten s s') :
    ∃ w : List F.Elem, s'.values = w.map some := by
  refine exists_map_some fun i hi => ?_
  rw [progress.fills.values.1, begun.size] at hi
  by_cases input : i < c.inputCount
  · have word : (UInt32.ofNat i).toNat = i := toNat_word (by omega)
    have solved := (begun.inputs (.ofNat i) (by rwa [word])).of_fills progress.fills
    rwa [State.Solved, word] at solved
  · obtain ⟨p, x, defines, rfl⟩ := shaped.covers i (by omega) hi
    have bound := defines.lt_length
    have word : (UInt32.ofNat p).toNat = p := toNat_word (Nat.lt_of_lt_of_le bound small)
    rw [← word] at bound defines
    exact progress.solved_of_defines hp shaped
      ((mem_schedule small leveled.scheduled).2 bound) defines

/-- So there is a solution. -/
theorem exists_solution (hp : F.IsPrime) (wf : c.WellFormed) (leveled : c.Leveled level)
    (small : c.instructions.length ≤ wordRange) (inputs : c.inputCount ≤ wordRange)
    (shaped : c.WellShaped) (started : start c hints witness = .ok s)
    (progress : Progress c hints c.levels.schedule.flatten s s') :
    ∃ sol, solution c s' = .ok sol := by
  have begun := start_begun started
  have counted := progress.fills.counted begun.counted
  obtain ⟨w, values⟩ := values_of_run hp leveled small inputs shaped begun progress
  cases kind : c.kind with
  | r1cs =>
    obtain ⟨rows, filled⟩ := progress.rows_of_start hp wf kind small started fun index bound =>
      (mem_schedule small leveled.scheduled).2 bound
    exact ⟨_, solution_r1cs kind counted values filled⟩
  | sparse =>
    obtain ⟨gs, gates⟩ := wf.exists_gates kind fun i hi => by
      obtain ⟨p, bound, rfl⟩ := List.getElem_of_mem hi
      obtain ⟨j, op, b, words, found, -, parts, -⟩ := leveled.decoded bound
      rw [List.getElem?_eq_getElem bound] at found
      exact ⟨op, Option.some.inj found ▸ parts.operation⟩
    simp only [solution, assignment_of_values counted values, kind, gates]
    exact ⟨_, rfl⟩

/-- An attempt of one worker to solve a well-shaped circuit finds a solution, or fails because of
    the witness, the hints at hand or a constraint that does not hold. Inputs and instructions are
    numbered by words, so there are no more of them than words. -/
theorem solve_faultless (hp : F.IsPrime) (built : c.Built) (shaped : c.WellShaped)
    (small : c.instructions.length ≤ wordRange) (inputs : c.inputCount ≤ wordRange)
    {config : SolverConfig} (alone : config.workerCount ≤ 1) (witness : List F.Elem) :
    (∃ sol, solve c config witness = .ok sol) ∨
      ∃ e, solve c config witness = .error e ∧ e.isFatal = false := by
  have reachable := built.reachable
  obtain ⟨level, leveled⟩ := built.leveled small
  by_cases registered : missingHints c config.hints = []
  · by_cases size : witness.length = c.witnessLength
    · obtain ⟨s, started⟩ := exists_start reachable inputs registered size
      cases run : (runInstructions c config.hints c.levels.schedule.flatten).run s with
      | ok u s' =>
        obtain ⟨sol, found⟩ := exists_solution hp reachable.wellFormed leveled small inputs shaped
          started (runInstructions_ok run)
        left
        refine ⟨sol, ?_⟩
        simp only [solve, attempt, started, runLevels_alone alone, run, found]
        rfl
      | error e s' =>
        obtain ⟨done, index, rest, t, split, before, last⟩ := runInstructions_error run
        have bound : index.toNat < c.instructions.length := by
          rw [← mem_schedule small leveled.scheduled, split]
          simp
        have expects := expects_of_run hp reachable leveled small shaped started split before
        right
        refine ⟨e, ?_, expects.faultless hp leveled shaped bound e s' last⟩
        simp only [solve, attempt, started, runLevels_alone alone, run]
    · right
      refine ⟨.witnessSize c.witnessLength witness.length, ?_, rfl⟩
      simp only [solve, attempt, start, registered, size, ne_eq, not_true_eq_false,
        not_false_eq_true, if_false, if_true]
  · right
    refine ⟨.missingHints (missingHints c config.hints), ?_, rfl⟩
    simp only [solve, attempt, start, registered, ne_eq, not_false_eq_true, if_true]

/-- Circuits of both kinds. In the one a committed value is asserted after it was found; in the
    other an inverse is needed, which there is none of for zero. -/
theorem solve_quotientCircuit_zero :
    (∃ sol, solve committedCircuit (noHints.withWorkers 1) [.ofNat 5] = .ok sol) ∧
      ∃ e, solve quotientCircuit (twoWorkers.withWorkers 1) [0] = .error e ∧
        e.isFatal = false := by
  have alone (config : SolverConfig) : (config.withWorkers 1).workerCount ≤ 1 := Nat.le_refl 1
  constructor
  · have built : committedCircuit.Built := .edits (.empty .sparse) (by simp [Edit.isAutomatic])
    have facts : (committedCircuit.WellShaped ∧ committedCircuit.instructions.length ≤ wordRange ∧
        committedCircuit.inputCount ≤ wordRange) ∧
        (solve committedCircuit (noHints.withWorkers 1) [.ofNat 5]).toOption.isSome := by
      decide +kernel
    obtain ⟨⟨shaped, small, inputs⟩, solvable⟩ := facts
    obtain found | ⟨e, failed, -⟩ := solve_faultless PrimeField.isPrime_tiny built shaped small
      inputs (alone noHints) [.ofNat 5]
    · exact found
    · rw [failed] at solvable
      cases solvable
  · have built : quotientCircuit.Built := .edits (.empty .r1cs) (by simp [Edit.isAutomatic])
    have facts : (quotientCircuit.WellShaped ∧ quotientCircuit.instructions.length ≤ wordRange ∧
        quotientCircuit.inputCount ≤ wordRange) ∧
        (solve quotientCircuit (twoWorkers.withWorkers 1) [0]).toOption = none := by
      decide +kernel
    obtain ⟨⟨shaped, small, inputs⟩, unsolvable⟩ := facts
    obtain ⟨sol, found⟩ | failed := solve_faultless PrimeField.isPrime_tiny built shaped small
      inputs (alone twoWorkers) [0]
    · rw [found] at unsolvable
      cases unsolvable
    · exact failed

end Solver

end CircuitWitness
