import CircuitWitness.Proofs.Solver.Expressions
import CircuitWitness.Proofs.Solver.Independence
import CircuitWitness.Proofs.Solver.Interleaving

/-!
# The ways to evaluate an expression

An expression is evaluated in three places: as an input of a hint, as one side of a constraint, and
for descriptions and logs. In all states that solving reaches they agree. For that the wire of one
must hold one, as it does from the start of an attempt on.

Solving reaches a state from the start by filling places of wires. That covers the states between
two instructions, however the tasks of a level interleave, those that a failed instruction leaves
behind and those within an instruction.

Results:
* `Reached.kept`, `Reached.levelsRun`: the states that solving reaches.
* `evaluators_agree`: in these states there is one value, or one term that is waited for.
-/

namespace CircuitWitness.Solver

variable {F : PrimeField} {c : Circuit F} {s s' : State F} {t : Term} {e : LinearExpr}

/-! ## States that are reached -/

/-- A state that solving reaches: places were filled since the start, also by instructions that
    failed, or that have not ended yet. -/
def Reached (c : Circuit F) (hints : HintRegistry) (witness : List F.Elem) (s : State F) : Prop :=
  ∃ s₀, start c hints witness = .ok s₀ ∧ Fills .univ .univ s₀ s

namespace Reached

variable {hints : HintRegistry} {config : SolverConfig} {witness : List F.Elem}

theorem start (begun : start c hints witness = .ok s) : Reached c hints witness s :=
  ⟨s, begun, .refl _ _ s⟩

theorem of_fills (h : Reached c hints witness s) (fills : Fills .univ .univ s s') :
    Reached c hints witness s' := by
  obtain ⟨s₀, begun, before⟩ := h
  exact ⟨s₀, begun, before.trans fills⟩

/-- Each instruction leads on to a state that is reached, also if it fails. -/
theorem kept : Kept c hints (Reached c hints witness) where
  instruction index s h := by
    have fills := Writes.solveInstruction c hints index s
    exact h.of_fills (fills.mono (Set.subset_univ _) (Set.subset_univ _))
  dispatch _ _ h := h.of_fills ⟨.refl _ _, .refl _ _, id⟩

/-- However the tasks of each level interleave, levels end in a state that is reached, also if one
    of them fails. -/
theorem levelsRun {number : ℕ} {levels : List (List UInt32)}
    {result : EStateM.Result (Error F) (State F) Unit} (h : Reached c config.hints witness s)
    (run : LevelsRun c config number levels s result) :
    Reached c config.hints witness (stateAfter result) :=
  kept.levelsRun h run

/-- In a state that is reached the wire of one holds one. -/
theorem prepared (h : Reached c hints witness s) : Prepared c s := by
  obtain ⟨s₀, begun, fills⟩ := h
  refine Prepared.of_fills ⟨(start_begun begun).size, fun kind => ?_⟩ fills
  obtain ⟨-, known, -⟩ := start_ok begun
  refine State.value?_eq_some.2 (known _ _ ?_)
  rw [inputsOf, kind]
  rfl

end Reached

/-! ## One value -/

/-- All ways to evaluate an expression come to a value. -/
structure EvaluatesTo (c : Circuit F) (s : State F) (e : LinearExpr) (x : F.Elem) : Prop where
  /-- A hint is given the value for its input. -/
  input : ∀ hint, (inputValue c hint e).run s = .ok x s
  /-- A constraint all of whose wires on a side are solved sums up the value for that side. -/
  summed : (∀ t ∈ e, s.Solved t.wire) → ∀ (constraint : UInt32) (side : Side) (p : Partial F),
    (e.foldlM (scanTerm c constraint side) p).run s = .ok { p with row := p.row.add side x } s
  /-- Where nothing may fail there is the value, too. -/
  tried : s.exprValue? c e = some x
  /-- It is shown in decimal digits. -/
  shown : s.exprText c e = toString x.val
  /-- It is the value under every assignment that extends the state. -/
  assigned : ∀ w : List F.Elem, Extends w s → c.exprOn w e = x

/-- No way to evaluate an expression comes to a value, for want of a term. -/
structure WaitsFor (c : Circuit F) (s : State F) (e : LinearExpr) (t : Term) : Prop where
  /-- A hint fails with the wire of the term. -/
  input : ∀ hint, (inputValue c hint e).run s
    = .error (.fatal (.unsolvedHintInput t.wire hint)) s
  tried : s.exprValue? c e = none
  shown : s.exprText c e = "<unsolved>"

theorem Prepared.evaluatesTo (h : Prepared c s) (range : ∀ t ∈ e, c.HasTerm t)
    (ready : s.firstUnsolved? e = none) : EvaluatesTo c s e (s.exprIn c e) := by
  have tried : s.exprValue? c e = some (s.exprIn c e) := by
    rw [State.exprValue?_eq fun t ht => (range t ht).1, h.find?_waits, ready]
  refine ⟨fun hint => ?_, fun solved constraint side p => h.run_scanExpr constraint side range
    solved p, tried, ?_, fun w extension => h.exprOn_eq ready extension⟩
  · rw [run_inputValue hint range h.size, h.find?_waits, ready]
  · rw [State.exprText, tried]
    rfl

theorem Prepared.waitsFor (h : Prepared c s) (range : ∀ t ∈ e, c.HasTerm t)
    (first : s.firstUnsolved? e = some t) : WaitsFor c s e t := by
  have tried : s.exprValue? c e = none := by
    rw [State.exprValue?_eq fun t ht => (range t ht).1, h.find?_waits, first]
  refine ⟨fun hint => ?_, tried, ?_⟩
  · rw [run_inputValue hint range h.size, h.find?_waits, first]
  · rw [State.exprText, tried]
    rfl

/-- In every state that solving reaches, the ways to evaluate an expression agree. If each wire that
    carries a coefficient other than the zero entry is solved, they all come to the sum of the
    products of coefficients and values, where a constant term counts as its coefficient. If not,
    none comes to a value, and a hint fails with the first such wire. The function of a hint is
    called with these values of its inputs, or the hint fails with the first such wire in them. -/
theorem evaluators_agree {hints : HintRegistry} {witness : List F.Elem}
    (reached : Reached c hints witness s) :
    (∀ e : LinearExpr, (∀ t ∈ e, c.HasTerm t) →
      (s.firstUnsolved? e = none → EvaluatesTo c s e (s.exprIn c e)) ∧
        ∀ t, s.firstUnsolved? e = some t → WaitsFor c s e t) ∧
    ∀ (call : HintCall) (hint : NamedHint), hints.find? call.hint = some hint →
      (∀ t ∈ call.terms, c.HasTerm t) →
      (s.firstUnsolved? call.terms = none → (solveHint c hints call).run s =
        match hint.function.outputs F.modulus (call.inputs.map fun e => (s.exprIn c e).val)
          call.outputs.length with
        | .error cause => .error (.hint call.hint hint.name cause) s
        | .ok outputs => (assignAll (call.outputs.zip outputs)).run s) ∧
      ∀ t, s.firstUnsolved? call.terms = some t →
        (solveHint c hints call).run s
          = .error (.fatal (.unsolvedHintInput t.wire call.hint)) s := by
  have prepared := reached.prepared
  refine ⟨fun e range => ⟨prepared.evaluatesTo range, fun t => prepared.waitsFor range⟩,
    fun call hint known range => ?_⟩
  have called := run_solveHint known range prepared.size
  rw [prepared.find?_waits] at called
  constructor
  · intro ready
    rw [ready] at called
    exact called
  · intro t first
    rw [first] at called
    exact called

/-- Two wires of four are solved at the start. A term with the zero entry does not wait for its
    wire, the first of the others does. -/
theorem evaluators_agree_start :
    let c := [.secretInput "x", .internal, .internal].foldl Edit.apply (.empty .tiny .r1cs)
    let hints := HintRegistry.empty.register "bits" .bits
    let s : State .tiny := ⟨[some 1, some (.ofNat 5), none, none], 2, [], []⟩
    Reached c hints [.ofNat 5] s ∧
      EvaluatesTo c s [⟨1, 1⟩, ⟨2, 0⟩, ⟨0, 2⟩] (.ofNat 7) ∧
      WaitsFor c s [⟨1, 1⟩, ⟨0, 2⟩, ⟨3, 3⟩, ⟨1, 2⟩] ⟨3, 3⟩ ∧
      stateAfter ((solveHint c hints ⟨hintId "bits", [[⟨1, 1⟩, ⟨2, 0⟩]], [3, 2]⟩).run s)
        = ⟨[some 1, some (.ofNat 5), some 1, some 1], 4, [], []⟩ := by
  intro c hints s
  have reached : Reached c hints [.ofNat 5] s := .start rfl
  have known : hints.find? (hintId "bits") = some ⟨"bits", .bits⟩ := by
    rw [HintRegistry.find?_register, if_pos rfl]
  obtain ⟨exprs, calls⟩ := evaluators_agree reached
  have ready := (exprs [⟨1, 1⟩, ⟨2, 0⟩, ⟨0, 2⟩] (by unfold Circuit.HasTerm; decide)).1 rfl
  have waiting := (exprs [⟨1, 1⟩, ⟨0, 2⟩, ⟨3, 3⟩, ⟨1, 2⟩] (by unfold Circuit.HasTerm; decide)).2
    ⟨3, 3⟩ rfl
  have called := (calls ⟨hintId "bits", [[⟨1, 1⟩, ⟨2, 0⟩]], [3, 2]⟩ _ known
    (by unfold Circuit.HasTerm; decide)).1 rfl
  have sum : s.exprIn c [⟨1, 1⟩, ⟨2, 0⟩, ⟨0, 2⟩] = .ofNat 7 := by decide
  have input : s.exprIn c [⟨1, 1⟩, ⟨2, 0⟩] = .ofNat 7 := by decide
  refine ⟨reached, sum ▸ ready, waiting, ?_⟩
  simp only [called, List.map_cons, List.map_nil, input]
  rfl

end CircuitWitness.Solver
