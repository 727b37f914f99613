import CircuitWitness.Proofs.Solver.Evaluators

/-!
# What one instruction changes

An instruction may run in any state, also in one that no attempt comes to, and it may fail after it
has set a wire. Whatever comes of it, solved wires keep their values, and at most some wires are
newly solved: one of those of a constraint, or the first of the outputs of a hint. No row is filled
but that of the constraint itself. The noted number of solved wires is right between any two
instructions of an attempt, also after failures and however the tasks of a level interleave.

Results:
* `solvesFirst_solveHint`: a hint call solves a prefix of its outputs.
* `Visited.levelsRun`: the states to which the instructions of an attempt lead.
* `solveInstruction_frame`: what an instruction changes.
-/

namespace CircuitWitness.Solver

variable {F : PrimeField} {c : Circuit F} {hints : HintRegistry} {s s' s'' : State F}
variable {W W' K K' : Set ℕ}

/-! ## Newly solved wires -/

/-- The places of the wires that are unsolved in the first state and solved in the second. -/
def newlySolved (s s' : State F) : Set ℕ :=
  { i | s.values[i]? = some none ∧ ∃ x, s'.values[i]? = some (some x) }

theorem Fills.newlySolved_subset (h : Fills W K s s') : newlySolved s s' ⊆ W := by
  rintro i ⟨empty, x, filled⟩
  by_contra outside
  rw [h.values.outside outside, empty] at filled
  cases filled

/-- All places that are filled are those of newly solved wires. -/
theorem Fills.fillsIn_newlySolved (h : Fills W K s s') :
    FillsIn (newlySolved s s') s.values s'.values := by
  refine ⟨h.values.1, fun i => (h.values.2 i).imp_right ?_⟩
  rintro ⟨-, empty, filled⟩
  exact ⟨⟨empty, filled⟩, empty, filled⟩

theorem newlySolved_self (s : State F) : newlySolved s s = ∅ :=
  Set.subset_empty_iff.1 (Fills.refl ∅ ∅ s).newlySolved_subset

theorem newlySolved_trans (h : Fills W K s s') (h' : Fills W' K' s' s'') :
    newlySolved s s'' = newlySolved s s' ∪ newlySolved s' s'' := by
  ext i
  constructor
  · rintro ⟨empty, filled⟩
    obtain same | ⟨-, -, between⟩ := h.values.2 i
    · exact .inr ⟨same.trans empty, filled⟩
    · exact .inl ⟨empty, between⟩
  · rintro (⟨empty, x, filled⟩ | ⟨empty, filled⟩)
    · exact ⟨empty, x, h'.values.keeps filled⟩
    · obtain same | ⟨-, -, x, between⟩ := h.values.2 i
      · exact ⟨same.symm.trans empty, filled⟩
      · cases between.symm.trans empty

theorem newlySolved_withValue {w : WireId} (empty : s.values[w.toNat]? = some none)
    (x : F.Elem) : newlySolved s (s.withValue w x) = { w.toNat } := by
  refine Set.Subset.antisymm ?_ (Set.singleton_subset_iff.2 ⟨empty, x, withValue_value empty x⟩)
  exact (fills_withValue (K := ∅) empty (Set.mem_singleton _) x).newlySolved_subset

/-- One of some wires at most is newly solved. -/
structure SolvesOne (l : List WireId) (s s' : State F) : Prop where
  one : (newlySolved s s').Subsingleton
  among : newlySolved s s' ⊆ places l

/-- The newly solved wires after a run are the first ones of a list, and all of them if it ended
    well. -/
def SolvesFirst (l : List WireId) (s : State F)
    (r : EStateM.Result (Error F) (State F) Unit) : Prop :=
  ∃ done, done <+: l ∧ newlySolved s (stateAfter r) = places done ∧
    ∀ s', r = .ok () s' → done = l

theorem WritesOne.solvesOne {l : List WireId} {x : Solve F Unit} (h : WritesOne (places l) K x)
    (s : State F) : SolvesOne l s (stateAfter (x.run s)) := by
  obtain ⟨V, sub, one, fills⟩ := h s
  exact ⟨one.anti fills.newlySolved_subset, fills.newlySolved_subset.trans sub⟩

/-! ## Outputs of hints -/

theorem places_nil : places [] = ∅ := by
  simp [places]

theorem places_cons (x : WireId) (l : List WireId) :
    places (x :: l) = { x.toNat } ∪ places l := by
  ext i
  simp [places, eq_comm]

theorem SolvesFirst.of_error {l : List WireId} {e : Error F} (h : Fills ∅ K s s') :
    SolvesFirst l s (.error e s') := by
  refine ⟨[], List.nil_prefix, ?_, fun _ ended => by cases ended⟩
  rw [places_nil]
  exact Set.subset_empty_iff.1 h.newlySolved_subset

/-- Wires are set in order, up to the first that cannot be. -/
theorem solvesFirst_assignAll (l : List (WireId × ℕ)) (s : State F) :
    SolvesFirst (l.map Prod.fst) s ((assignAll l).run s) := by
  induction l generalizing s with
  | nil => exact ⟨[], List.nil_prefix, by rw [places_nil]; exact newlySolved_self s, fun _ _ => rfl⟩
  | cons e l ih =>
    obtain ⟨w, n⟩ := e
    simp only [assignAll, EStateM.run_bind, run_assign, List.map_cons]
    rcases valueAt : s.values[w.toNat]? with _ | _ | y
    · exact .of_error (K := ∅) (.refl ∅ ∅ s)
    · obtain ⟨done, pre, solved, all⟩ := ih (s.withValue w (.ofNat n))
      have first := fills_withValue (W := .univ) (K := ∅) valueAt (Set.mem_univ _) (.ofNat n)
      have rest := Writes.assignAll (K := ∅) l (s.withValue w (.ofNat n))
      refine ⟨w :: done, List.cons_prefix_cons.2 ⟨rfl, pre⟩, ?_, fun s' ended => ?_⟩
      · dsimp only
        rw [newlySolved_trans first rest, newlySolved_withValue valueAt, solved, places_cons]
      · rw [all s' ended]
    · exact .of_error (K := ∅) (.refl ∅ ∅ s)

/-- A call solves the first of its outputs, and all of them if it ends well. -/
theorem solvesFirst_solveHint (c : Circuit F) (hints : HintRegistry) (call : HintCall)
    (s : State F) : SolvesFirst call.outputs s ((solveHint c hints call).run s) := by
  unfold solveHint
  split
  · exact .of_error (K := ∅) (.refl ∅ ∅ s)
  · rw [EStateM.run_bind]
    cases read : (inputValues c call.hint call.inputs).run s with
    | error e s₁ =>
      exact .of_error ((Writes.inputValues (K := ∅) c call.hint call.inputs).error read)
    | ok inputs s₁ =>
      obtain ⟨rfl, -⟩ := inputValues_ok read
      dsimp only
      split
      · exact .of_error (K := ∅) (.refl ∅ ∅ _)
      · next outputs called =>
        have first := solvesFirst_assignAll (call.outputs.zip outputs) s₁
        rwa [List.map_fst_zip (length_outputs called).ge] at first

/-! ## Operations -/

/-- The wires that a run solved newly are those that an operation may solve: one of the wires of a
    constraint at most, the first of the outputs of a hint. -/
def SolvedBy (s : State F) (r : EStateM.Result (Error F) (State F) Unit) : Operation → Prop
  | .r1c q => SolvesOne (q.terms.map Term.wire) s (stateAfter r)
  | .gate g => SolvesOne g.wires s (stateAfter r)
  | .hint call => SolvesFirst call.outputs s r

theorem solveOperation_solvedBy (c : Circuit F) (hints : HintRegistry) {i : Instruction}
    {b : Blueprint} {words : CallData} {op : Operation} (h : c.Decoded i b words op)
    (s : State F) :
    SolvedBy s ((solveOperation c hints i.constraint b words op).run s) op := by
  cases op with
  | r1c q => exact (WritesOne.solveR1C c i.constraint q).solvesOne s
  | gate g => exact (WritesOne.solvePackedGate (K := ∅) c i.constraint h.read.2).solvesOne s
  | hint call => exact solvesFirst_solveHint c hints call s

/-! ## States of an attempt -/

/-- The states before and after the instructions of an attempt, whichever of them run and whether
    they end well or fail. -/
inductive Visited (c : Circuit F) (hints : HintRegistry) (witness : List F.Elem) :
    State F → Prop where
  | start {s : State F} (begun : start c hints witness = .ok s) : Visited c hints witness s
  | instruction {s : State F} (index : UInt32) (before : Visited c hints witness s) :
    Visited c hints witness (stateAfter ((solveInstruction c hints index).run s))
  | dispatch {s : State F} (d : Dispatch) (before : Visited c hints witness s) :
    Visited c hints witness (s.withDispatch d)

namespace Visited

variable {config : SolverConfig} {witness : List F.Elem}

/-- These are the states in which levels end, however the tasks of each of them interleave, also if
    one of them fails. -/
theorem levelsRun {number : ℕ} {levels : List (List UInt32)}
    {result : EStateM.Result (Error F) (State F) Unit} (h : Visited c config.hints witness s)
    (run : LevelsRun c config number levels s result) :
    Visited c config.hints witness (stateAfter result) :=
  Kept.levelsRun ⟨fun index _ => .instruction index, fun d _ => .dispatch d⟩ h run

theorem counted (h : Visited c hints witness s) : s.Counted := by
  induction h with
  | start begun => exact (start_begun begun).counted
  | @instruction s index _ ih => exact (Writes.solveInstruction c hints index s).counted ih
  | dispatch d _ ih => exact ih

end Visited

/-! ## Instructions -/

/-- What running the instruction at a place in a state changed, whatever came of it. -/
structure Frame (c : Circuit F) (index : UInt32) (s : State F)
    (r : EStateM.Result (Error F) (State F) Unit) : Prop where
  /-- Each wire is as it was or was unsolved and is solved now; so a solved wire keeps its value. -/
  values : FillsIn (newlySolved s (stateAfter r)) s.values (stateAfter r).values
  /-- The wires that were unsolved and are solved now are those that the operation may solve. -/
  solved : ∀ op, c.operationAt index.toNat = some op → SolvedBy s r op
  /-- No row was filled but that of the constraint, and none was changed. -/
  rows : FillsIn (c.ownRow index.toNat) s.rows (stateAfter r).rows
  counted : s.Counted → (stateAfter r).Counted
  /-- An instruction that cannot be decoded fails and changes nothing. -/
  refused : c.operationAt index.toNat = none → ∃ fault, r = .error (.fatal fault) s

/-- Running an instruction, in whatever state and whether it ends well or fails, never changes the
    value of a solved wire. It solves at most one wire of a constraint, a prefix of the outputs of a
    hint, and all of these if it ends well. No row is filled but its own. The number of solved wires
    is the noted one in all states of an attempt. -/
theorem solveInstruction_frame (c : Circuit F) (hints : HintRegistry) :
    (∀ (index : UInt32) (s : State F), Frame c index s ((solveInstruction c hints index).run s)) ∧
      ∀ (witness : List F.Elem) (s : State F), Visited c hints witness s → s.Counted := by
  refine ⟨fun index s => ?_, fun witness s visited => visited.counted⟩
  have fills := Writes.solveInstruction c hints index s
  refine ⟨fills.fillsIn_newlySolved, fun op opAt => ?_, fills.rows, fills.counted, fun noOp => ?_⟩
  · obtain ⟨i, found, operation⟩ := Circuit.operationAt_eq_some.1 opAt
    obtain ⟨b, words, parts⟩ := Circuit.Decoded.of_operationOf operation
    rw [solveInstruction_eq found parts]
    exact solveOperation_solvedBy c hints parts s
  · obtain ⟨-, fault, eq⟩ | ⟨i, b, words, op, found, parts, -⟩ :=
      solveInstruction_cases c hints index
    · exact ⟨fault, by rw [eq, run_fail]⟩
    · rw [Circuit.operationAt_eq_some.2 ⟨i, found, parts.operation⟩] at noOp
      cases noOp

/-- A hint for bits with three outputs. -/
def threeBitsCircuit : Circuit .tiny :=
  [.secretInput "x", .internal, .internal, .internal, .blueprint .genericHint,
    .hint ⟨hintId "bits", [[⟨1, 1⟩]], [2, 3, 4]⟩ "bits" 0].foldl Edit.apply (.empty .tiny .r1cs)

/-- The second output of the call is solved already when it runs. So it fails, and by then it has
    solved the first one, but not the third. -/
theorem solveInstruction_frame_bits :
    let hints := HintRegistry.empty.register "bits" .bits
    let s : State .tiny := ⟨[some 1, some (.ofNat 5), none, some 0, none], 3, [], []⟩
    let run (s : State .tiny) := (solveInstruction threeBitsCircuit hints 0).run s
    Frame threeBitsCircuit 0 s (run s) ∧ failure? (run s) = some (.fatal (.wireSolvedTwice 3)) ∧
      (stateAfter (run s)).values = [some 1, some (.ofNat 5), some 1, some 0, none] ∧
      ∃ t, Visited threeBitsCircuit hints [.ofNat 5] (stateAfter (run t)) ∧
        (stateAfter (run t)).Counted ∧ (stateAfter (run t)).solvedCount = 5 := by
  intro hints s run
  obtain ⟨frame, counted⟩ := solveInstruction_frame threeBitsCircuit hints
  have ended : failure? (run s) = some (.fatal (.wireSolvedTwice 3)) ∧
      (stateAfter (run s)).values = [some 1, some (.ofNat 5), some 1, some 0, none] ∧
      (start threeBitsCircuit hints [.ofNat 5]).toOption.map
        (fun t => (stateAfter (run t)).solvedCount) = some 5 := by
    decide +kernel
  obtain ⟨failed, values, all⟩ := ended
  obtain ⟨t, begun, solved⟩ := Option.map_eq_some_iff.1 all
  have visited := (Visited.start (except_toOption_eq_some.1 begun)).instruction 0
  exact ⟨frame 0 s, failed, values, t, visited, counted _ _ visited, solved⟩

end CircuitWitness.Solver
