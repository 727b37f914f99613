import CircuitWitness.Proofs.Field.Ring
import CircuitWitness.Proofs.Solver.Attempts
import CircuitWitness.Proofs.Solver.Confluence

/-!
# Parallel attempts

After a level has ended well, all wires that it defines are solved, so that the next one is ready.
Its instructions are then independent of each other, and the order in which the workers take their
steps shows nowhere: neither in the solution nor in the failure.

Results:
* `levelsRun_similar`: two runs through the levels of a circuit come to the same.
* `mayReturn_gist`: two attempts come to the same, whatever their workers do.
* `solve_parallel`: each comes to what a single worker finds.
-/

namespace CircuitWitness.Solver

variable {F : PrimeField} {c : Circuit F} {hints : HintRegistry} {level : ℕ → ℕ} {s s' t : State F}
  {l : ℕ}

/-! ## One level after the other -/

theorem Ready.of_agree (h : Ready c level l s) (agree : Agree .univ .univ s t) :
    Ready c level l t := by
  have solved {x : WireId} (hx : s.Solved x) : t.Solved x := by
    obtain ⟨v, valueAt⟩ := hx
    exact ⟨v, by rw [← agree.values x.toNat (Set.mem_univ _), valueAt]⟩
  exact ⟨by rw [← agree.wireCount, h.size], fun x hx => solved (h.inputs x hx),
    fun p x defines below => solved (h.lower p x defines below)⟩

/-- A level that ended well leaves the next one ready. -/
theorem Ready.next (hp : F.IsPrime) (known : c.ReadsKnown)
    (small : c.instructions.length ≤ wordRange) (ready : Ready c level l s)
    (h : Verdict c hints s (Levels.indicesAt level c.instructions.length l) (.ok () s')) :
    Ready c level (l + 1) s' := by
  cases h with
  | ok all merged =>
    refine ⟨by rw [merged.fills.values.1, ready.size],
      fun x hx => (ready.inputs x hx).of_fills merged.fills, fun p x defines below => ?_⟩
    by_cases lower : level p < l
    · exact (ready.lower p x defines lower).of_fills merged.fills
    · obtain ⟨op, opAt, mem⟩ := defines.2.1
      have bound := Circuit.lt_of_operationAt opAt
      have word := toNat_word (Nat.lt_of_lt_of_le bound small)
      have here : UInt32.ofNat p ∈ Levels.indicesAt level c.instructions.length l := by
        rw [mem_indicesAt small, word]
        exact ⟨bound, by omega⟩
      obtain ⟨s₁, run⟩ := all _ here
      have fill : x.toNat ∈ c.fillable (UInt32.ofNat p).toNat := by
        rw [word]
        exact known.fillable defines
      obtain ⟨v, solved⟩ := solveInstruction_settles hp run fill
      have look := Circuit.fillable_subset _ fill
      refine ⟨v, ?_⟩
      rw [← (merged.agree _ here s₁ run).values x.toNat look]
      exact solved

/-- Two runs of a level that is ready come to the same, whatever their workers do. -/
theorem levelRuns_similar (hp : F.IsPrime) (wf : c.WellFormed) (leveled : c.Leveled level)
    (known : c.ReadsKnown) (small : c.instructions.length ≤ wordRange)
    {config config' : SolverConfig} (same : config'.hints = config.hints) {number number' : ℕ}
    {r r' : EStateM.Result (Error F) (State F) Unit} (ready : Ready c level l s)
    (agree : Agree .univ .univ s t)
    (h : LevelRuns c config number (Levels.indicesAt level c.instructions.length l) s r)
    (h' : LevelRuns c config' number' (Levels.indicesAt level c.instructions.length l) t r') :
    Similar .univ .univ r r' := by
  have ind := ready.independent wf leveled known small
  have ind' := (ready.of_agree agree).independent wf leveled known small
  have verdict' := levelRuns_verdict hp leveled ind' h'
  rw [same] at verdict'
  exact verdict_similar hp leveled ind agree (levelRuns_verdict hp leveled ind h) verdict'

/-- Two runs through the levels of a circuit come to the same, whatever their workers do. -/
theorem levelsRun_similar (hp : F.IsPrime) (wf : c.WellFormed) (leveled : c.Leveled level)
    (known : c.ReadsKnown) (small : c.instructions.length ≤ wordRange)
    {config config' : SolverConfig} (same : config'.hints = config.hints) {number number' : ℕ}
    {levels : List (List UInt32)} {r r' : EStateM.Result (Error F) (State F) Unit}
    (lists : ∀ k indices, levels[k]? = some indices →
      indices = Levels.indicesAt level c.instructions.length (l + k))
    (ready : Ready c level l s) (agree : Agree .univ .univ s t)
    (h : LevelsRun c config number levels s r) (h' : LevelsRun c config' number' levels t r') :
    Similar .univ .univ r r' := by
  induction levels generalizing l s t number number' with
  | nil =>
    cases h with
    | nil =>
      cases h' with
      | nil => exact .ok agree
  | cons indices rest ih =>
    have first : indices = Levels.indicesAt level c.instructions.length l := lists 0 indices rfl
    subst first
    cases h with
    | fails failed =>
      cases h' with
      | fails failed' =>
        cases levelRuns_similar hp wf leveled known small same ready agree failed failed' with
        | error gist => exact .error gist
      | next ended' others' =>
        cases levelRuns_similar hp wf leveled known small same ready agree failed ended'
    | next ended others =>
      cases h' with
      | fails failed' =>
        cases levelRuns_similar hp wf leveled known small same ready agree ended failed'
      | next ended' others' =>
        have above (k : ℕ) (indices : List UInt32) (listed : rest[k]? = some indices) :
            indices = Levels.indicesAt level c.instructions.length (l + 1 + k) := by
          rw [Nat.add_right_comm]
          exact lists (k + 1) indices listed
        cases levelRuns_similar hp wf leveled known small same ready agree ended ended' with
        | ok agree₁ =>
          have ind := ready.independent wf leveled known small
          have ready₁ := ready.next hp known small (levelRuns_verdict hp leveled ind ended)
          exact ih above ready₁ agree₁ others others'

/-! ## Attempts -/

/-- The first level is ready at the start. -/
theorem Begun.ready (h : Begun c s) : Ready c level 0 s :=
  ⟨h.size, h.inputs, fun _ _ _ below => absurd below (Nat.not_lt_zero _)⟩

/-- The solution depends on the values and rows alone. -/
theorem solution_congr (agree : Agree .univ .univ s t) (hs : s.Counted) (ht : t.Counted) :
    solution c s = solution c t := by
  have values : s.values = t.values := List.ext_getElem? fun i => agree.values i (Set.mem_univ i)
  have rows : s.rows = t.rows := List.ext_getElem? fun k => agree.rows k (Set.mem_univ k)
  have count : s.solvedCount = t.solvedCount := by rw [hs, ht, values]
  unfold solution assignment
  rw [values, rows, count]

/-- Two attempts come to the same, whatever their workers do. -/
theorem mayReturn_gist (hp : F.IsPrime) (built : c.Built)
    (small : c.instructions.length ≤ wordRange) (known : c.ReadsKnown)
    {config config' : SolverConfig} (same : config'.hints = config.hints) {witness : List F.Elem}
    {out out' : Except (Error F) (Solution F)} (h : MayReturn c config witness out)
    (h' : MayReturn c config' witness out') :
    out.mapError Error.gist = out'.mapError Error.gist := by
  obtain ⟨level, leveled⟩ := built.leveled small
  have wf := built.reachable.wellFormed
  cases h with
  | refused begun =>
    cases h' with
    | refused begun' =>
      rw [same, begun] at begun'
      rw [Except.error.inj begun']
    | ran begun' =>
      rw [same, begun] at begun'
      cases begun'
  | @ran s r begun run =>
    cases h' with
    | refused begun' =>
      rw [same, begun] at begun'
      cases begun'
    | @ran t r' begun' run' =>
      rw [same, begun] at begun'
      obtain rfl := Except.ok.inj begun'
      have begun := start_begun begun
      have similar := levelsRun_similar hp wf leveled known small same
        (fun k indices listed => by
          rw [Nat.zero_add]
          exact leveled.scheduled.lists k indices listed)
        begun.ready (.refl _ _ s) run run'
      cases similar with
      | ok agree =>
        have last := (levelsRun_ok run rfl).fills.counted begun.counted
        have last' := (levelsRun_ok run' rfl).fills.counted begun.counted
        simp only [outcomeOf, solution_congr agree last last']
      | error gist => simp only [outcomeOf, Except.mapError, gist]

/-- In whatever order the workers take their steps, an attempt comes to what it comes to on a single
    one: it finds the same solution, or fails with the same gist. Instructions are numbered by
    words, so a circuit with more of them than words is left out: some of them share a number. -/
theorem solve_parallel (hp : F.IsPrime) (built : c.Built)
    (small : c.instructions.length ≤ wordRange) (known : c.ReadsKnown) (config : SolverConfig)
    (witness : List F.Elem) :
    MayReturn c config witness (solve c config witness) ∧
      ∀ out, MayReturn c config witness out →
        out.mapError Error.gist = (solve c (config.withWorkers 1) witness).mapError Error.gist := by
  refine ⟨solve_mayReturn c config witness, fun out h => ?_⟩
  have alone : (config.withWorkers 1).hints = config.hints := rfl
  exact mayReturn_gist hp built small known alone h (solve_mayReturn c _ witness)

/-- The constraints `x ⋅ x = y` and `x ⋅ (x + 1) = z`, which stand in one level, and in the next a
    hint that sets a wire to the last bit of `z`. -/
def productsCircuit : Circuit .tiny :=
  [.secretInput "x", .internal, .internal, .internal, .blueprint .genericR1C,
    .blueprint .genericHint, .r1c ⟨[⟨1, 1⟩], [⟨1, 1⟩], [⟨1, 2⟩]⟩ 0,
    .r1c ⟨[⟨1, 1⟩], [⟨1, 1⟩, ⟨1, 0⟩], [⟨1, 3⟩]⟩ 0,
    .hint ⟨hintId "bits", [[⟨1, 3⟩]], [4]⟩ "bits" 1].foldl Edit.apply (.empty .tiny .r1cs)

theorem solve_productsCircuit :
    productsCircuit.levels.schedule.map (isSplit twoWorkers) = [true, false] ∧
      ∀ out, MayReturn productsCircuit twoWorkers [.ofNat 5] out →
        out.mapError Error.gist = .ok (.r1cs ⟨[1, .ofNat 5, .ofNat 25, .ofNat 30, 0],
          [.ofNat 5, .ofNat 5], [.ofNat 5, .ofNat 6], [.ofNat 25, .ofNat 30]⟩) := by
  have built : productsCircuit.Built := .edits (.empty .r1cs) (by simp [Edit.isAutomatic])
  have facts : (productsCircuit.levels.schedule.map (isSplit twoWorkers) = [true, false] ∧
      productsCircuit.instructions.length ≤ wordRange ∧ productsCircuit.ReadsKnown) ∧
      solve productsCircuit (twoWorkers.withWorkers 1) [.ofNat 5]
        = .ok (.r1cs ⟨[1, .ofNat 5, .ofNat 25, .ofNat 30, 0],
          [.ofNat 5, .ofNat 5], [.ofNat 5, .ofNat 6], [.ofNat 25, .ofNat 30]⟩) := by
    decide +kernel
  obtain ⟨⟨split, small, known⟩, alone⟩ := facts
  refine ⟨split, fun out h => ?_⟩
  have parallel := solve_parallel PrimeField.isPrime_tiny built small known twoWorkers [.ofNat 5]
  rw [parallel.2 out h, alone]
  rfl

end CircuitWitness.Solver
