import CircuitWitness.Proofs.Circuit.TermOrder
import CircuitWitness.Proofs.Solver.Expressions
import CircuitWitness.Proofs.Solver.Recoding
import CircuitWitness.Proofs.Solver.Refutation

/-!
# Solving with terms in another order

A constraint looks at its terms one by one: it sums up the solved ones, notes the first that is not
and stops at the second. What it comes to does not hang on their order, since sums do not, and since
what is noted is the only unsolved term, or else is lost in the failure. An input of a hint stops at
the first unsolved wire, which another order makes another wire of the same hint. That wire is all
that can differ in what a single worker comes to.

Results:
* `foldlM_perm`: a program that takes the entries of a list one by one comes to the same in another
  order, if any two of them may be swapped.
* `solveR1C_perm`, `solveHint_perm`: constraints and hints with terms in another order.
* `runInstructions_reordered`: a run comes to the same.
* `solve_reordered`: the order of terms is irrelevant to the levels and to solving.
-/

namespace CircuitWitness.Solver

variable {F : PrimeField} {α β : Type}

/-! ## Outcomes -/

/-- An error without the wire that a hint was found to wait for. -/
def Error.topic : Error F → Error F
  | .fatal (.unsolvedHintInput _ id) => .fatal (.unsolvedHintInput 0 id)
  | e => e

/-- Outcomes that are the same, but for the wire that a hint was found to wait for. -/
inductive Matching : EStateM.Result (Error F) (State F) α → EStateM.Result (Error F) (State F) α →
    Prop where
  | ok (a : α) (s : State F) : Matching (.ok a s) (.ok a s)
  | error {e e' : Error F} {s s' : State F} (topic : e.topic = e'.topic) :
    Matching (.error e s) (.error e' s')

namespace Matching

variable {r r' r'' : EStateM.Result (Error F) (State F) α}

theorem refl (r : EStateM.Result (Error F) (State F) α) : Matching r r := by
  cases r with
  | ok a s => exact .ok a s
  | error e s => exact .error rfl

theorem trans (h : Matching r r') (h' : Matching r' r'') : Matching r r'' := by
  cases h with
  | ok => exact h'
  | error topic =>
    cases h' with
    | error topic' => exact .error (topic.trans topic')

theorem of_ok {a : α} {s : State F} (h : Matching (.ok a s) r) : r = .ok a s := by
  cases h
  rfl

theorem of_error {e : Error F} {s : State F} (h : Matching (.error e s) r) :
    ∃ e' s', r = .error e' s' ∧ e.topic = e'.topic := by
  cases h with
  | error topic => exact ⟨_, _, rfl, topic⟩

theorem bind {x x' : Solve F α} {f f' : α → Solve F β} {s : State F}
    (first : Matching (x.run s) (x'.run s))
    (rest : ∀ a s', x.run s = .ok a s' → Matching ((f a).run s') ((f' a).run s')) :
    Matching ((x >>= f).run s) ((x' >>= f').run s) := by
  rw [EStateM.run_bind, EStateM.run_bind]
  cases ran : x.run s with
  | ok a s' =>
    rw [ran] at first
    rw [first.of_ok]
    exact rest a s' ran
  | error e s' =>
    rw [ran] at first
    obtain ⟨e', s'', ran', topic⟩ := first.of_error
    rw [ran']
    exact .error topic

end Matching

/-- A program that takes the entries of a list one by one, and leaves the state, comes to the same
    in another order, if any two of them may be swapped. -/
theorem foldlM_perm {f : β → α → Solve F β} {l l' : List α} (perm : l.Perm l') {s : State F}
    (steady : ∀ a ∈ l, ∀ (b b' : β) (s' : State F), (f b a).run s = .ok b' s' → s' = s)
    (swap : ∀ a ∈ l, ∀ a' ∈ l, ∀ b : β,
      Matching ((f b a >>= (f · a')).run s) ((f b a' >>= (f · a)).run s)) (b : β) :
    Matching ((l.foldlM f b).run s) ((l'.foldlM f b).run s) := by
  induction perm generalizing b with
  | nil => exact .refl _
  | cons a _ ih =>
    rw [List.foldlM_cons, List.foldlM_cons]
    refine Matching.bind (.refl _) fun b' s' ran => ?_
    obtain rfl := steady a List.mem_cons_self b b' s' ran
    exact ih (fun a ha => steady a (List.mem_cons_of_mem _ ha))
      (fun a ha a' ha' => swap a (List.mem_cons_of_mem _ ha) a' (List.mem_cons_of_mem _ ha')) b'
  | swap a a' l =>
    simp only [List.foldlM_cons, ← bind_assoc]
    refine Matching.bind (swap a' (by simp) a (by simp) b) fun b' s' ran => .refl _
  | trans first _ ih ih' =>
    have back {a : α} (ha : a ∈ _) := first.mem_iff.2 ha
    exact (ih steady swap b).trans (ih' (fun a ha => steady a (back ha))
      (fun a ha a' ha' => swap a (back ha) a' (back ha')) b)

variable {c : Circuit F} {s : State F}

/-! ## Rank-one constraints -/

/-- A term that exists is summed up if it is solved, and else noted as the unsolved one. -/
theorem scanTerm_cases (constraint : UInt32) (side : Side) {t : Term} (range : c.HasTerm t)
    (size : s.values.length = c.wireCount) :
    (∃ x, ∀ p : Partial F, (scanTerm c constraint side p t).run s
        = .ok { p with row := p.row.add side x } s) ∨
      ∀ p : Partial F, (scanTerm c constraint side p t).run s
        = if p.unknown.isSome then .error (.fatal (.multipleUnsolved constraint)) s
          else .ok { p with unknown := some (side, t) } s := by
  have run := run_scanTerm constraint side range size
  cases value : s.value? t.wire with
  | some x => exact .inl ⟨c.coeffOn t.coeff * x, fun p => by rw [run p, value]⟩
  | none => exact .inr fun p => by rw [run p, value]

/-- Two terms may be scanned in either order. -/
theorem scanTerm_swap (constraint : UInt32) (side : Side) {t t' : Term} (range : c.HasTerm t)
    (range' : c.HasTerm t') (size : s.values.length = c.wireCount) (p : Partial F) :
    Matching ((scanTerm c constraint side p t >>= (scanTerm c constraint side · t')).run s)
      ((scanTerm c constraint side p t' >>= (scanTerm c constraint side · t)).run s) := by
  obtain ⟨x, first⟩ | first := scanTerm_cases constraint side range size
  · obtain ⟨y, second⟩ | second := scanTerm_cases constraint side range' size
    · simp only [EStateM.run_bind, first, second, p.row.add_comm side side x y]
      exact .refl _
    · simp only [EStateM.run_bind, first, second]
      cases p.unknown with
      | none => simp only [Option.isSome_none, Bool.false_eq_true, if_false, first]; exact .refl _
      | some u => exact .error rfl
  · obtain ⟨y, second⟩ | second := scanTerm_cases constraint side range' size
    · simp only [EStateM.run_bind, first, second]
      cases p.unknown with
      | none => simp only [Option.isSome_none, Bool.false_eq_true, if_false, second]; exact .refl _
      | some u => exact .error rfl
    · -- Whichever comes first is noted, and the other one is the second.
      simp only [EStateM.run_bind, first, second]
      cases p.unknown with
      | none => simp only [Option.isSome_none, Bool.false_eq_true, if_false, first, second,
          Option.isSome_some, if_true]; exact .error rfl
      | some u => exact .error rfl

theorem scanExpr_perm (constraint : UInt32) (side : Side) {e e' : LinearExpr} (perm : e.Perm e')
    (range : ∀ t ∈ e, c.HasTerm t) (size : s.values.length = c.wireCount) (p : Partial F) :
    Matching ((e.foldlM (scanTerm c constraint side) p).run s)
      ((e'.foldlM (scanTerm c constraint side) p).run s) := by
  refine foldlM_perm perm (fun t ht p p' s' ran => (scanTerm_ok ran).1) (fun t ht t' ht' p => ?_) p
  exact scanTerm_swap constraint side (range t ht) (range t' ht') size p

theorem scan_perm (constraint : UInt32) {r r' : R1C} (perm : r.Permuted r')
    (range : ∀ t ∈ r.terms, c.HasTerm t) (size : s.values.length = c.wireCount) :
    Matching ((scan c constraint r).run s) ((scan c constraint r').run s) := by
  have left : ∀ t ∈ r.l, c.HasTerm t := fun t ht => range t (by simp [R1C.terms, ht])
  have right : ∀ t ∈ r.r, c.HasTerm t := fun t ht => range t (by simp [R1C.terms, ht])
  have out : ∀ t ∈ r.o, c.HasTerm t := fun t ht => range t (by simp [R1C.terms, ht])
  refine (scanExpr_perm constraint .l perm.left left size .blank).bind fun p s' ran => ?_
  obtain ⟨rfl, -⟩ := scanExpr_ok ran
  refine (scanExpr_perm constraint .r perm.right right size p).bind fun p s' ran => ?_
  obtain ⟨rfl, -⟩ := scanExpr_ok ran
  exact scanExpr_perm constraint .o perm.out out size p

/-- A constraint comes to the same with its terms in another order. -/
theorem solveR1C_perm (constraint : UInt32) {r r' : R1C} (perm : r.Permuted r')
    (range : ∀ t ∈ r.terms, c.HasTerm t) (size : s.values.length = c.wireCount) :
    Matching ((solveR1C c constraint r).run s) ((solveR1C c constraint r').run s) :=
  (scan_perm constraint perm range size).bind fun _ _ _ => .refl _

/-! ## Hints -/

/-- Inputs come to the same values, or to the failure of some term that waits. -/
theorem inputValues_perm (hint : HintId) {es es' : List LinearExpr}
    (perm : List.Forall₂ List.Perm es es') (range : ∀ t ∈ es.flatten, c.HasTerm t)
    (size : s.values.length = c.wireCount) :
    Matching ((inputValues c hint es).run s) ((inputValues c hint es').run s) := by
  have flat : es.flatten.Perm es'.flatten := .flatten_congr perm
  have values : es.map (s.exprIn c) = es'.map (s.exprIn c) := by
    rw [← List.forall₂_eq_eq_eq, List.forall₂_map_left_iff, List.forall₂_map_right_iff]
    exact perm.imp fun _ _ => s.exprIn_perm c
  rw [run_inputValues hint range size,
    run_inputValues hint (fun t ht => range t (flat.mem_iff.2 ht)) size, values]
  cases first : es.flatten.find? (s.waits c) with
  | none =>
    have noneWaits : es'.flatten.find? (s.waits c) = none := by
      rw [List.find?_eq_none] at first ⊢
      exact fun t ht => first t (flat.mem_iff.2 ht)
    rw [noneWaits]
    exact .refl _
  | some t =>
    cases first' : es'.flatten.find? (s.waits c) with
    | none =>
      have ready := List.find?_eq_none.1 first' t (flat.mem_iff.1 (List.mem_of_find?_eq_some first))
      exact absurd (List.find?_some first) ready
    | some t' => exact .error rfl

/-- A call comes to the same with the terms of its inputs in another order. -/
theorem solveHint_perm (hints : HintRegistry) {h h' : HintCall} (perm : h.Permuted h')
    (range : ∀ t ∈ h.terms, c.HasTerm t) (size : s.values.length = c.wireCount) :
    Matching ((solveHint c hints h).run s) ((solveHint c hints h').run s) := by
  unfold solveHint
  rw [perm.hint, perm.outputs]
  split
  · exact .refl _
  · exact (inputValues_perm h.hint perm.inputs range size).bind fun xs s' _ => .refl _

/-! ## Runs -/

variable {d : Circuit F} {hints : HintRegistry}

/-- An instruction comes to the same with its terms in another order. -/
theorem solveInstruction_reordered (h : c.Reordered d) (hints : HintRegistry) (index : UInt32)
    (size : s.values.length = c.wireCount) :
    Matching ((solveInstruction c hints index).run s) ((solveInstruction d hints index).run s) := by
  cases found : c.instructions[index.toNat]? with
  | none =>
    have found' : d.instructions[index.toNat]? = none := h.instructions_eq ▸ found
    simp only [solveInstruction, found, found']
    exact .refl _
  | some i =>
    have found' : d.instructions[index.toNat]? = some i := h.instructions_eq ▸ found
    obtain ⟨op, op', decoded, decoded', perm, range⟩ := h.instruction found
    obtain ⟨b, words, parts⟩ := Circuit.Decoded.of_operationOf decoded
    obtain ⟨b', words', parts'⟩ := Circuit.Decoded.of_operationOf decoded'
    rw [solveInstruction_eq found parts, solveInstruction_eq found' parts']
    obtain ⟨ws, -, rfl⟩ := h.code
    cases perm with
    | r1c perm => exact solveR1C_perm i.constraint perm range size
    | @hint call call' perm =>
      have same : solveHint (c.withCode c.instructions ws) hints call' = solveHint c hints call' :=
        solvePlain_withCode c c.instructions ws hints i.constraint (.hint call')
      simp only [solveOperation, same]
      exact solveHint_perm hints perm range.1 size

/-- A run comes to the same with the terms in another order. -/
theorem runInstructions_reordered (h : c.Reordered d) (hints : HintRegistry) (l : List UInt32)
    (size : s.values.length = c.wireCount) :
    Matching ((runInstructions c hints l).run s) ((runInstructions d hints l).run s) := by
  induction l generalizing s with
  | nil => exact .refl _
  | cons index l ih =>
    refine (solveInstruction_reordered h hints index size).bind fun _ s' ran => ih ?_
    exact (Progress.single ran).fills.values.1.trans size

/-! ## Attempts -/

theorem start_reordered (h : c.Reordered d) (hints : HintRegistry) (witness : List F.Elem) :
    start d hints witness = start c hints witness := by
  obtain ⟨ws, -, rfl⟩ := h.code
  rfl

theorem solution_reordered (h : c.Reordered d) (kind : c.kind = .r1cs) (s : State F) :
    solution d s = solution c s := by
  obtain ⟨ws, -, rfl⟩ := h.code
  have kind' : (c.withCode c.instructions ws).kind = .r1cs := kind
  simp only [solution, kind, kind']

/-- A single worker comes to the same. -/
theorem solve_matching (h : c.Reordered d) (kind : c.kind = .r1cs) {config : SolverConfig}
    (alone : config.workerCount ≤ 1) (witness : List F.Elem) :
    (solve d config witness).mapError Error.topic
      = (solve c config witness).mapError Error.topic := by
  simp only [solve, attempt, start_reordered h, runLevels_alone alone, h.levels_eq]
  cases started : start c config.hints witness with
  | error e => rfl
  | ok s =>
    have matching := runInstructions_reordered h config.hints c.levels.schedule.flatten
      (start_begun started).size
    dsimp only
    cases ran : (runInstructions c config.hints c.levels.schedule.flatten).run s with
    | error e s' =>
      rw [ran] at matching
      obtain ⟨e', s'', ran', topic⟩ := matching.of_error
      simp only [ran', Except.mapError, topic]
    | ok u s' =>
      rw [ran] at matching
      simp only [matching.of_ok, solution_reordered h kind]

/-- The order of terms is irrelevant. Circuits of rank-one constraints that are built by the same
    edits, but for the order of the terms in each expression of a constraint and in each input of a
    hint, have the same levels, and a single worker finds the same solution for them or fails for
    the same reason. If the reason is that a hint reads a wire that is not solved, it may be another
    such wire of the same hint. As places in the buffer are words of 64 bits, it may not be
    longer. -/
theorem solve_reordered {edits edits' : List (Edit F)}
    (perms : List.Forall₂ Edit.Permuted edits edits') (automatic : ∀ e ∈ edits, e.isAutomatic)
    (small : (edits.foldl Edit.apply (.empty F .r1cs)).callData.length < 2 ^ 64) :
    let c := edits.foldl Edit.apply (.empty F .r1cs)
    let d := edits'.foldl Edit.apply (.empty F .r1cs)
    d.levels = c.levels ∧ ∀ (config : SolverConfig) (witness : List F.Elem),
      (solve d (config.withWorkers 1) witness).mapError Error.topic
        = (solve c (config.withWorkers 1) witness).mapError Error.topic := by
  intro c d
  have reordered : c.Reordered d :=
    (Circuit.Reordered.empty F .r1cs).edits rfl perms automatic small
  have kind : c.kind = .r1cs := Circuit.kind_edits edits _
  have alone (config : SolverConfig) : (config.withWorkers 1).workerCount ≤ 1 := Nat.le_refl 1
  exact ⟨reordered.levels_eq, fun config witness =>
    solve_matching reordered kind (alone config) witness⟩

/-- The constraint `(x + 2y)⋅x = z` with the given terms of its first factor, and a hint for the
    last bit of the sum of the given terms. -/
def sumEdits (factor input : LinearExpr) : List (Edit .tiny) :=
  [.secretInput "x", .secretInput "y", .internal, .internal, .blueprint .genericR1C,
    .blueprint .genericHint, .hint ⟨hintId "bits", [input], [4]⟩ "bits" 1,
    .r1c ⟨factor, [⟨1, 1⟩], [⟨1, 3⟩]⟩ 0]

theorem solve_sumEdits :
    let edits := sumEdits [⟨1, 1⟩, ⟨2, 2⟩] [⟨1, 1⟩, ⟨1, 2⟩, ⟨1, 0⟩]
    let edits' := sumEdits [⟨2, 2⟩, ⟨1, 1⟩] [⟨1, 0⟩, ⟨1, 1⟩, ⟨1, 2⟩]
    let c := edits.foldl Edit.apply (.empty .tiny .r1cs)
    let d := edits'.foldl Edit.apply (.empty .tiny .r1cs)
    c.callData ≠ d.callData ∧ d.levels = c.levels ∧
      ∃ sol, solve c (oneWorker.withWorkers 1) [.ofNat 3, .ofNat 5] = .ok (.r1cs sol) ∧
        sol.w = [1, .ofNat 3, .ofNat 5, .ofNat 39, 1] ∧
        solve d (oneWorker.withWorkers 1) [.ofNat 3, .ofNat 5] = .ok (.r1cs sol) := by
  intro edits edits' c d
  have perms : List.Forall₂ Edit.Permuted edits edits' := by
    have call : HintCall.Permuted ⟨hintId "bits", [[⟨1, 1⟩, ⟨1, 2⟩, ⟨1, 0⟩]], [4]⟩
        ⟨hintId "bits", [[⟨1, 0⟩, ⟨1, 1⟩, ⟨1, 2⟩]], [4]⟩ := ⟨rfl, .cons (by decide) .nil, rfl⟩
    have constraint : R1C.Permuted ⟨[⟨1, 1⟩, ⟨2, 2⟩], [⟨1, 1⟩], [⟨1, 3⟩]⟩
        ⟨[⟨2, 2⟩, ⟨1, 1⟩], [⟨1, 1⟩], [⟨1, 3⟩]⟩ := ⟨by decide, .refl _, .refl _⟩
    exact .cons (.same _) <| .cons (.same _) <| .cons (.same _) <| .cons (.same _) <|
      .cons (.same _) <| .cons (.same _) <| .cons (.hint call _ _) <| .cons (.r1c constraint _) .nil
  have facts : c.callData.length < 2 ^ 64 ∧ c.callData ≠ d.callData ∧
      solve c (oneWorker.withWorkers 1) [.ofNat 3, .ofNat 5] = .ok (.r1cs
        ⟨[1, .ofNat 3, .ofNat 5, .ofNat 39, 1], [.ofNat 13], [.ofNat 3], [.ofNat 39]⟩) := by
    decide +kernel
  obtain ⟨small, other, solved⟩ := facts
  obtain ⟨levels, same⟩ := solve_reordered perms (by simp [edits, sumEdits, Edit.isAutomatic]) small
  have outcome := same oneWorker [.ofNat 3, .ofNat 5]
  refine ⟨other, levels, _, solved, rfl, ?_⟩
  rw [solved] at outcome
  cases result : solve d (oneWorker.withWorkers 1) [.ofNat 3, .ofNat 5] with
  | error e =>
    rw [result] at outcome
    cases outcome
  | ok sol =>
    rw [result] at outcome
    exact outcome

end CircuitWitness.Solver
