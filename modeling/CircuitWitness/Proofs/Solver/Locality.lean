import CircuitWitness.Proofs.Solver.Gate
import CircuitWitness.Proofs.Solver.Hint
import CircuitWitness.Proofs.Solver.RankOne

/-!
# What an instruction looks at

Two states may differ in wires that an instruction has nothing to do with. It then takes the same
course from both of them: it finds the same values and fills the same places, or it meets the same
failure. Only the words that describe an unsatisfied constraint may show other wires.

Results:
* `Local.bind`, `Local.foldlM`: a program looks at no other places than its parts.
* `Local.solveR1C`, `Local.solveGate`, `Local.solveHint`: the places of the three operations.
-/

namespace CircuitWitness.Solver

variable {F : PrimeField} {α β : Type}

/-! ## States and outcomes that agree -/

/-- An error without the words and values that describe an unsatisfied constraint. -/
def Error.gist : Error F → Error F
  | .unsatisfied u => .unsatisfied ⟨u.constraint, .equal 0 0, none⟩
  | e => e

/-- States with as many places that agree on the wires in `R` and the rows in `K`. -/
structure Agree (R K : Set ℕ) (s t : State F) : Prop where
  wireCount : s.values.length = t.values.length
  rowCount : s.rows.length = t.rows.length
  values : ∀ i ∈ R, s.values[i]? = t.values[i]?
  rows : ∀ k ∈ K, s.rows[k]? = t.rows[k]?

variable {R K : Set ℕ} {s t u : State F}

theorem Agree.refl (R K : Set ℕ) (s : State F) : Agree R K s s :=
  ⟨rfl, rfl, fun _ _ => rfl, fun _ _ => rfl⟩

theorem Agree.symm (h : Agree R K s t) : Agree R K t s :=
  ⟨h.wireCount.symm, h.rowCount.symm, fun i hi => (h.values i hi).symm,
    fun k hk => (h.rows k hk).symm⟩

theorem Agree.trans (h : Agree R K s t) (h' : Agree R K t u) : Agree R K s u :=
  ⟨h.wireCount.trans h'.wireCount, h.rowCount.trans h'.rowCount,
    fun i hi => (h.values i hi).trans (h'.values i hi),
    fun k hk => (h.rows k hk).trans (h'.rows k hk)⟩

/-- Outcomes that agree: both end well with the same result, or both fail with the same gist. -/
inductive Similar (R K : Set ℕ) :
    EStateM.Result (Error F) (State F) α → EStateM.Result (Error F) (State F) α → Prop where
  | ok {a : α} {s t : State F} (agree : Agree R K s t) : Similar R K (.ok a s) (.ok a t)
  | error {e e' : Error F} {s t : State F} (gist : e.gist = e'.gist) :
    Similar R K (.error e s) (.error e' t)

theorem Similar.refl (R K : Set ℕ) (r : EStateM.Result (Error F) (State F) α) :
    Similar R K r r := by
  cases r with
  | ok a s => exact .ok (.refl R K s)
  | error e s => exact .error rfl

theorem Similar.symm {r r' : EStateM.Result (Error F) (State F) α} (h : Similar R K r r') :
    Similar R K r' r := by
  cases h with
  | ok agree => exact .ok agree.symm
  | error gist => exact .error gist.symm

theorem Similar.trans {r r' r'' : EStateM.Result (Error F) (State F) α} (h : Similar R K r r')
    (h' : Similar R K r' r'') : Similar R K r r'' := by
  cases h with
  | ok agree =>
    cases h' with
    | ok agree' => exact .ok (agree.trans agree')
  | error gist =>
    cases h' with
    | error gist' => exact .error (gist.trans gist')

theorem Similar.of_ok {a : α} {r : EStateM.Result (Error F) (State F) α}
    (h : Similar R K (.ok a s) r) : ∃ t, r = .ok a t ∧ Agree R K s t := by
  cases h with
  | ok agree => exact ⟨_, rfl, agree⟩

theorem Similar.of_error {e : Error F} {r : EStateM.Result (Error F) (State F) α}
    (h : Similar R K (.error e s) r) : ∃ e' t, r = .error e' t ∧ e.gist = e'.gist := by
  cases h with
  | error gist => exact ⟨_, _, rfl, gist⟩

/-! ## Programs -/

/-- A program that looks at wires in `R` and rows in `K` only. -/
def Local (R K : Set ℕ) (x : Solve F α) : Prop :=
  ∀ s t, Agree R K s t → Similar R K (x.run s) (x.run t)

theorem Local.pure (a : α) : Local (F := F) R K (pure a) := fun _ _ agree => .ok agree

theorem Local.throw (e : Error F) : Local R K (throw e : Solve F α) := fun _ _ _ => .error rfl

theorem Local.fail (e : FatalError) : Local R K (fail e : Solve F α) := .throw _

theorem Similar.unsatisfied (c : Circuit F) (k : UInt32) (r r' : Relation F) (s t : State F) :
    Similar R K ((unsatisfied c k r : Solve F α).run s) ((unsatisfied c k r' : Solve F α).run t) :=
  .error rfl

theorem Local.bind_of_ok {x : Solve F α} {f : α → Solve F β} (hx : Local R K x)
    (hf : ∀ a s s', x.run s = .ok a s' → Local R K (f a)) : Local R K (x >>= f) := by
  intro s t agree
  have first := hx s t agree
  rw [EStateM.run_bind, EStateM.run_bind]
  cases hs : x.run s with
  | ok a s₁ =>
    rw [hs] at first
    obtain ⟨t₁, ht, agree₁⟩ := first.of_ok
    rw [ht]
    exact hf a s s₁ hs s₁ t₁ agree₁
  | error e s₁ =>
    rw [hs] at first
    obtain ⟨e', t₁, ht, gist⟩ := first.of_error
    rw [ht]
    exact .error gist

theorem Local.bind {x : Solve F α} {f : α → Solve F β} (hx : Local R K x)
    (hf : ∀ a, Local R K (f a)) : Local R K (x >>= f) :=
  hx.bind_of_ok fun a _ _ _ => hf a

theorem Local.foldlM {f : β → α → Solve F β} {l : List α} (hf : ∀ b, ∀ a ∈ l, Local R K (f b a))
    (b : β) : Local R K (l.foldlM f b) := by
  induction l generalizing b with
  | nil => exact .pure b
  | cons a l ih =>
    rw [List.foldlM_cons]
    have rest := ih fun b a' ha' => hf b a' (List.mem_cons_of_mem a ha')
    exact (hf b a List.mem_cons_self).bind rest

/-! ## Reads and writes of the state -/

theorem Local.isSolved {x : WireId} (hx : x.toNat ∈ R) : Local (F := F) R K (isSolved x) := by
  intro s t agree
  rw [run_isSolved, run_isSolved, agree.values _ hx, agree.wireCount]
  cases t.values[x.toNat]? with
  | none => exact .error rfl
  | some v => exact .ok agree

theorem Local.value {x : WireId} (hx : x.toNat ∈ R) : Local (F := F) R K (value x) := by
  intro s t agree
  rw [run_value, run_value, agree.values _ hx, agree.wireCount]
  rcases t.values[x.toNat]? with _ | _ | v
  · exact .error rfl
  · exact .error rfl
  · exact .ok agree

theorem Agree.withValue (h : Agree R K s t) (x : WireId) (v : F.Elem) :
    Agree R K (s.withValue x v) (t.withValue x v) := by
  refine ⟨?_, h.rowCount, fun i hi => ?_, h.rows⟩
  · simp only [State.withValue, List.length_set]
    exact h.wireCount
  · simp only [State.withValue, List.getElem?_set, h.values i hi, h.wireCount]

theorem Local.assign {x : WireId} (hx : x.toNat ∈ R) (v : F.Elem) : Local R K (assign x v) := by
  intro s t agree
  rw [run_assign, run_assign, agree.values _ hx, agree.wireCount]
  rcases t.values[x.toNat]? with _ | _ | y
  · exact .error rfl
  · exact .ok (agree.withValue x v)
  · exact .error rfl

theorem Local.coeff (c : Circuit F) (id : CoeffId) : Local R K (coeff c id) := by
  intro s t agree
  rw [run_coeff, run_coeff]
  cases c.coeffs.get? id with
  | none => exact .error rfl
  | some q => exact .ok agree

/-- The wire of a term is looked at unless the coefficient is the zero entry. -/
theorem Local.termValue (c : Circuit F) {x : Term}
    (hx : x.isZero = false → x.wire.toNat ∈ R) : Local R K (termValue c x) := by
  unfold Solver.termValue
  cases zero : x.isZero with
  | true => exact .pure _
  | false =>
    refine (Local.value (hx zero)).bind fun v => ?_
    split
    · exact .pure _
    · split
      · exact .pure _
      · split
        · exact .pure _
        · exact (Local.coeff c _).bind fun q => .pure _

theorem Agree.withRow (h : Agree R K s t) (k : UInt32) (row : Row F) :
    Agree R K (s.withRow k row) (t.withRow k row) := by
  refine ⟨h.wireCount, ?_, h.values, fun i hi => ?_⟩
  · simp only [State.withRow, List.length_set]
    exact h.rowCount
  · simp only [State.withRow, List.getElem?_set, h.rows i hi, h.rowCount]

theorem Local.record {k : UInt32} (hk : k.toNat ∈ K) (row : Row F) : Local R K (record k row) := by
  intro s t agree
  rw [run_record, run_record, agree.rows _ hk]
  rcases t.rows[k.toNat]? with _ | _ | y
  · exact .error rfl
  · exact .ok (agree.withRow k row)
  · exact .error rfl

/-! ## Rank-one constraints -/

theorem Local.scanTerm (c : Circuit F) (constraint : UInt32) (side : Side) (p : Partial F)
    {x : Term} (hx : x.wire.toNat ∈ R) : Local R K (scanTerm c constraint side p x) := by
  refine (Local.isSolved hx).bind fun b => ?_
  split
  · exact (Local.termValue c fun _ => hx).bind fun v => .pure _
  · split
    · exact (Local.fail _).bind fun _ => .pure _
    · exact .pure _

theorem Local.scan (c : Circuit F) (constraint : UInt32) {r : R1C}
    (hr : ∀ x ∈ r.terms, x.wire.toNat ∈ R) : Local R K (scan c constraint r) := by
  have left : ∀ x ∈ r.l, x.wire.toNat ∈ R := fun x hx => hr x (by simp [R1C.terms, hx])
  have right : ∀ x ∈ r.r, x.wire.toNat ∈ R := fun x hx => hr x (by simp [R1C.terms, hx])
  have out : ∀ x ∈ r.o, x.wire.toNat ∈ R := fun x hx => hr x (by simp [R1C.terms, hx])
  refine (Local.foldlM (fun p x hx => .scanTerm c constraint .l p (left x hx)) _).bind fun p => ?_
  refine (Local.foldlM (fun p x hx => .scanTerm c constraint .r p (right x hx)) _).bind fun p => ?_
  exact .foldlM (fun p x hx => .scanTerm c constraint .o p (out x hx)) _

theorem Local.wireOfTerm (v : F.Elem) (id : CoeffId) (q : F.Elem) :
    Local R K (wireOfTerm v id q) := by
  unfold Solver.wireOfTerm
  split
  · exact .pure _
  · split
    · exact .pure _
    · split
      · exact .fail _
      · split
        · exact .pure _
        · exact .fail _

/-- A constraint looks at its wires and its own row. -/
theorem Local.solveR1C (c : Circuit F) (constraint : UInt32) (r : R1C) :
    Local (places (r.terms.map Term.wire)) { constraint.toNat } (solveR1C c constraint r) := by
  have inside : ∀ x ∈ r.terms, x.wire.toNat ∈ places (r.terms.map Term.wire) :=
    fun x hx => mem_places.2 (List.mem_map_of_mem hx)
  have rowPlace : constraint.toNat ∈ ({ constraint.toNat } : Set ℕ) := rfl
  refine (Local.scan c constraint inside).bind_of_ok fun p s s' scanned => ?_
  obtain ⟨-, -, -, origin⟩ := scan_ok scanned
  split
  · dsimp only
    split
    · exact Local.bind (fun s t _ => Similar.unsatisfied c _ _ _ s t) fun _ => .record rowPlace _
    · exact .record rowPlace _
  · next side x unknown =>
    dsimp only
    split
    · exact fun s t _ => Similar.unsatisfied c _ _ _ s t
    · refine (Local.coeff c _).bind fun q => (Local.wireOfTerm _ _ _).bind fun v => ?_
      have mem := inside x (origin _ unknown).1
      exact (Local.assign mem v).bind fun _ => .record rowPlace _

/-! ## Gates -/

theorem Local.secondFactor (g : Gate) : Local (F := F) (places g.wires) K (secondFactor g) := by
  unfold Solver.secondFactor
  split
  · exact .pure _
  · next weight =>
    have used : g.usesB = true := by simp [Gate.usesB, weight]
    exact .value (mem_places.2 (Gate.mem_wires.2 (.inr (.inl ⟨used, rfl⟩))))

theorem Local.checkGate (c : Circuit F) (constraint : UInt32) (g : Gate) :
    Local (places g.wires) K (checkGate c constraint g) := by
  have first (q : CoeffId) (used : q ≠ CoeffId.zero → g.usesA = true) :
      Local (places g.wires) K (Solver.termValue c ⟨q, g.xa⟩) := by
    refine .termValue c fun weight => mem_places.2 (Gate.mem_wires.2 (.inl ⟨used ?_, rfl⟩))
    simpa [Term.isZero] using weight
  have second : Local (places g.wires) K (Solver.termValue c ⟨g.qr, g.xb⟩) := by
    refine .termValue c fun weight => mem_places.2 (Gate.mem_wires.2 (.inr (.inl ⟨?_, rfl⟩)))
    simp_all [Term.isZero, Gate.usesB]
  have third : Local (places g.wires) K (Solver.termValue c ⟨g.qo, g.xc⟩) := by
    refine .termValue c fun weight => mem_places.2 (Gate.mem_wires.2 (.inr (.inr ⟨?_, rfl⟩)))
    simp_all [Term.isZero, Gate.usesC]
  rw [checkGate_eq]
  refine (first g.ql fun h => by simp [Gate.usesA, h]).bind fun l => second.bind fun r => ?_
  refine third.bind fun o => (first g.qm fun h => by simp [Gate.usesA, h]).bind fun m₀ => ?_
  refine (Local.secondFactor g).bind fun m₁ => (Local.coeff c _).bind fun q => ?_
  unfold Solver.checkSum
  split
  · exact fun s t _ => Similar.unsatisfied c _ _ _ s t
  · exact .pure _

theorem Local.checkIfPlain (c : Circuit F) (constraint : UInt32) (g : Gate) :
    Local (places g.wires) K (checkIfPlain c constraint g) := by
  unfold Solver.checkIfPlain
  split
  · exact .checkGate c constraint g
  · exact .pure _

theorem Local.unsolvedOf {l : List WireId} (hl : ∀ x ∈ l, x.toNat ∈ R) :
    Local (F := F) R K (unsolvedOf l) := by
  induction l with
  | nil => exact .pure _
  | cons x l ih =>
    have rest := ih fun y hy => hl y (List.mem_cons_of_mem x hy)
    exact (Local.isSolved (hl x List.mem_cons_self)).bind fun _ => rest.bind fun _ => .pure _

theorem Local.operand {x : WireId} {used : Bool} (hx : used = true → x.toNat ∈ R) (u : WireId) :
    Local (F := F) R K (operand x used u) := by
  unfold Solver.operand
  cases used with
  | false => exact .pure _
  | true =>
    simp only [Bool.not_true, Bool.false_eq_true, if_false]
    split
    · exact .pure _
    · exact (Local.value (hx rfl)).bind fun _ => .pure _

theorem Local.gatePolynomial (c : Circuit F) (g : Gate) (u : WireId) :
    Local (places g.wires) K (gatePolynomial c g u) := by
  have a : Local (F := F) (places g.wires) K (Solver.operand g.xa g.usesA u) :=
    .operand (fun used => mem_places.2 (Gate.mem_wires.2 (.inl ⟨used, rfl⟩))) u
  have b : Local (F := F) (places g.wires) K (Solver.operand g.xb g.usesB u) :=
    .operand (fun used => mem_places.2 (Gate.mem_wires.2 (.inr (.inl ⟨used, rfl⟩)))) u
  have o : Local (F := F) (places g.wires) K (Solver.operand g.xc g.usesC u) :=
    .operand (fun used => mem_places.2 (Gate.mem_wires.2 (.inr (.inr ⟨used, rfl⟩)))) u
  refine a.bind fun _ => b.bind fun _ => o.bind fun _ => ?_
  exact (Local.coeff c _).bind fun _ => (Local.coeff c _).bind fun _ => (Local.coeff c _).bind
    fun _ => (Local.coeff c _).bind fun _ => (Local.coeff c _).bind fun _ => .pure _

/-- A gate that is solved as a polynomial looks at the wires that take part. -/
theorem Local.solveGate (c : Circuit F) (constraint : UInt32) (g : Gate) :
    Local (places g.wires) K (solveGate c constraint g) := by
  unfold Solver.solveGate
  split
  · exact .pure _
  · refine (Local.unsolvedOf fun x hx => mem_places.2 hx).bind_of_ok fun us s s' found => ?_
    obtain ⟨-, -, origin⟩ := unsolvedOf_ok found
    split
    · exact .checkIfPlain c constraint g
    · next x =>
      have mem : x.toNat ∈ places g.wires := mem_places.2 (origin x (by simp)).1
      refine (Local.gatePolynomial c g x).bind fun p => ?_
      dsimp only
      split
      · rw [fail_bind]
        exact .fail _
      · split
        · exact .assign mem _
        · exact (Local.assign mem _).bind fun _ => .checkIfPlain c constraint g
    · exact .fail _

/-! ## Hint calls -/

theorem Local.addInputTerm (c : Circuit F) (hint : HintId) (sum : F.Elem) {x : Term}
    (hx : x.isZero = false → x.wire.toNat ∈ R) : Local R K (addInputTerm c hint sum x) := by
  unfold Solver.addInputTerm
  cases zero : x.isZero with
  | true => exact .pure _
  | false =>
    simp only [Bool.false_eq_true, if_false]
    split
    · exact (Local.coeff c _).bind fun q => .pure _
    · refine (Local.isSolved (hx zero)).bind fun b => ?_
      split
      · exact (Local.fail _).bind fun _ => (Local.termValue c hx).bind fun v => .pure _
      · exact (Local.termValue c hx).bind fun v => .pure _

theorem Local.inputValues (c : Circuit F) (hint : HintId) {es : List LinearExpr}
    (hes : ∀ x ∈ es.flatten, x.isZero = false → x.wire.toNat ∈ R) :
    Local R K (inputValues c hint es) := by
  induction es with
  | nil => exact .pure _
  | cons e es ih =>
    have here : ∀ x ∈ e, x.isZero = false → x.wire.toNat ∈ R :=
      fun x hx => hes x (by simp [hx])
    have rest := ih fun x hx => hes x (by simp [List.mem_flatten.1 hx])
    refine (Local.foldlM (fun b x hx => .addInputTerm c hint b (here x hx)) 0).bind fun _ => ?_
    exact rest.bind fun _ => .pure _

theorem Local.assignAll {l : List (WireId × Nat)} (hl : ∀ e ∈ l, e.1.toNat ∈ R) :
    Local (F := F) R K (assignAll l) := by
  induction l with
  | nil => exact .pure _
  | cons e l ih =>
    have rest := ih fun e' he' => hl e' (List.mem_cons_of_mem e he')
    exact (Local.assign (hl e List.mem_cons_self) _).bind fun _ => rest

/-- A call looks at its outputs and at the inputs that have a weight. -/
theorem Local.solveHint (c : Circuit F) (hints : HintRegistry) {call : HintCall}
    (inputs : ∀ x ∈ call.terms, x.isZero = false → x.wire.toNat ∈ R)
    (outputs : ∀ x ∈ call.outputs, x.toNat ∈ R) : Local R K (solveHint c hints call) := by
  unfold Solver.solveHint
  split
  · exact .throw _
  · refine (Local.inputValues c _ inputs).bind fun values => ?_
    dsimp only
    split
    · exact .throw _
    · refine .assignAll fun e he => ?_
      exact outputs e.1 (List.of_mem_zip he).1

end CircuitWitness.Solver
