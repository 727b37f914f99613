import CircuitWitness.Proofs.Solver.Attempts
import CircuitWitness.Proofs.Solver.Independence

/-!
# Instructions in another order

In a run that takes the instructions as they were added, a wire is solved by the first of them that
may fill it. So at each point it is known which wires are solved. In another order an instruction
finds the same if those that solve what it looks at still come before it.

Results:
* `inOrder_ok`: what a run in the order of addition tells.
* `Replayed.agree`, `Replayed.step`: one more instruction in another order finds the same.
* `reordered_ok`: if the one run ends well, so does the other, in a state that agrees.
-/

namespace CircuitWitness

variable {F : PrimeField}

namespace Circuit

variable (c : Circuit F)

/-- The numbers of all instructions, as they were added. -/
def inOrder : List UInt32 := (List.range c.instructions.length).map UInt32.ofNat

/-- An instruction solves a wire that is no input if it is the first that may fill it. -/
def Solves (p : ℕ) (x : WireId) : Prop :=
  c.inputCount ≤ x.toNat ∧ x.toNat ∈ c.fillable p ∧ ∀ q < p, x.toNat ∉ c.fillable q

/-- An instruction solves a wire that a later one looks at. -/
def Precedes (p q : ℕ) : Prop := p < q ∧ ∃ x : WireId, x.toNat ∈ c.lookedAt q ∧ c.Solves p x

/-- The places of the wires that some instructions solve. -/
def settledBy (ran : Set ℕ) : Set ℕ := { i | ∃ p ∈ ran, ∃ x, c.Solves p x ∧ x.toNat = i }

/-- The rows of some instructions. -/
def rowsBy (ran : Set ℕ) : Set ℕ := { k | ∃ p ∈ ran, k ∈ c.ownRow p }

variable {c}

/-- A wire that an instruction may fill is solved then or before, unless it is an input. -/
theorem exists_solves {p : ℕ} {x : WireId} (noInput : c.inputCount ≤ x.toNat)
    (fill : x.toNat ∈ c.fillable p) : ∃ q ≤ p, c.Solves q x := by
  obtain ⟨q, le, fill, first⟩ := exists_first (P := (x.toNat ∈ c.fillable ·)) fill
  exact ⟨q, le, noInput, fill, first⟩

theorem settledBy_mono {ran ran' : Set ℕ} (sub : ran ⊆ ran') :
    c.settledBy ran ⊆ c.settledBy ran' := by
  rintro i ⟨p, hp, solves⟩
  exact ⟨p, sub hp, solves⟩

theorem rowsBy_mono {ran ran' : Set ℕ} (sub : ran ⊆ ran') : c.rowsBy ran ⊆ c.rowsBy ran' := by
  rintro k ⟨p, hp, own⟩
  exact ⟨p, sub hp, own⟩

end Circuit

namespace Solver

variable {c : Circuit F} {hints : HintRegistry} {level : ℕ → ℕ} {s₀ s₁ s₂ s' t : State F}

/-! ## The order of addition -/

/-- A state of a run in the order of addition, after so many instructions. -/
structure UpTo (c : Circuit F) (s₀ : State F) (n : ℕ) (s : State F) : Prop where
  fills : Fills { i | ∃ p < n, i ∈ c.fillable p } { k | ∃ p < n, k ∈ c.ownRow p } s₀ s
  solved : ∀ x, s.Solved x ↔ s₀.Solved x ∨ ∃ p < n, c.Solves p x

theorem UpTo.zero (s₀ : State F) : UpTo c s₀ 0 s₀ :=
  ⟨.refl _ _ s₀, fun x => by simp⟩

/-- One more instruction solves the wires that it is the first to fill. -/
theorem UpTo.succ (hp : F.IsPrime) (begun : Begun c s₀) {index : UInt32} {u : Unit}
    (h : UpTo c s₀ index.toNat s₁) (run : (solveInstruction c hints index).run s₁ = .ok u s₂) :
    UpTo c s₀ (index.toNat + 1) s₂ := by
  have writes := (Writes.solveInstruction c hints index).ok run
  have later (p : ℕ) (lt : p < index.toNat) : p < index.toNat + 1 := by omega
  refine ⟨(h.fills.mono ?_ ?_).trans (writes.mono ?_ ?_), fun x => ⟨fun solved => ?_, ?_⟩⟩
  · rintro i ⟨p, lt, fill⟩
    exact ⟨p, later p lt, fill⟩
  · rintro k ⟨p, lt, own⟩
    exact ⟨p, later p lt, own⟩
  · intro i fill
    exact ⟨_, Nat.lt_succ_self _, fill⟩
  · intro k own
    exact ⟨_, Nat.lt_succ_self _, own⟩
  · by_cases before : s₁.Solved x
    · refine ((h.solved x).1 before).imp_right ?_
      rintro ⟨p, lt, solves⟩
      exact ⟨p, later p lt, solves⟩
    · -- The wire is filled now, so nothing before could fill it.
      right
      have fill : x.toNat ∈ c.fillable index.toNat := by
        obtain same | ⟨mem, -, -⟩ := writes.values.2 x.toNat
        · obtain ⟨v, valueAt⟩ := solved
          exact absurd ⟨v, same ▸ valueAt⟩ before
        · exact mem
      have noInput : c.inputCount ≤ x.toNat := by
        by_contra input
        exact before ((begun.inputs x (by omega)).of_fills h.fills)
      obtain ⟨p, le, solves⟩ := Circuit.exists_solves noInput fill
      exact ⟨p, by omega, solves⟩
  · rintro (first | ⟨p, lt, solves⟩)
    · exact (first.of_fills h.fills).of_fills writes
    · by_cases last : p = index.toNat
      · subst last
        exact solveInstruction_settles hp run solves.2.1
      · have earlier : s₁.Solved x := (h.solved x).2 (.inr ⟨p, by omega, solves⟩)
        exact earlier.of_fills writes

/-- A wire that no instruction has solved so far is as it was. -/
theorem UpTo.outside {n : ℕ} {s : State F} (h : UpTo c s₀ n s) {x : WireId}
    (unsolved : ∀ p < n, ¬ c.Solves p x) : s.values[x.toNat]? = s₀.values[x.toNat]? := by
  obtain same | ⟨-, empty, v, filled⟩ := h.fills.values.2 x.toNat
  · exact same
  · obtain before | ⟨p, lt, solves⟩ := (h.solved x).1 ⟨v, filled⟩
    · exact absurd empty before.ne_unsolved
    · exact absurd solves (unsolved p lt)

/-- What an instruction looks at was solved when it ran, if it is solved by another one. -/
theorem UpTo.solved_of_looked (begun : Begun c s₀) {index : UInt32}
    (h : UpTo c s₀ index.toNat s₁) (run : (solveInstruction c hints index).run s₁ = .ok () s₂)
    {p : ℕ} {x : WireId} (look : x.toNat ∈ c.lookedAt index.toNat) (solves : c.Solves p x)
    (other : p ≠ index.toNat) : s₁.Solved x := by
  have one (kind : c.kind = .r1cs) : s₁.Solved oneWire := (begun.one kind).of_fills h.fills
  obtain fill | solved := solveInstruction_reads one run look
  · have lt : p < index.toNat := by
      by_contra above
      exact solves.2.2 _ (by omega) fill
    exact (h.solved x).2 (.inr ⟨p, lt, solves⟩)
  · exact solved

/-- What a run in the order of addition tells of one of its instructions. -/
def RanInOrder (c : Circuit F) (hints : HintRegistry) (s₀ s' : State F) (index : UInt32) : Prop :=
  ∃ s₁ s₂, UpTo c s₀ index.toNat s₁ ∧ (solveInstruction c hints index).run s₁ = .ok () s₂ ∧
    Fills .univ .univ s₂ s'

theorem runs_inOrder (hp : F.IsPrime) (begun : Begun c s₀)
    (small : c.instructions.length ≤ wordRange) {n : ℕ} (bound : n ≤ c.instructions.length)
    {u : Unit}
    (run : (runInstructions c hints ((List.range n).map UInt32.ofNat)).run s₀ = .ok u s') :
    UpTo c s₀ n s' ∧ ∀ p < n, RanInOrder c hints s₀ s' (UInt32.ofNat p) := by
  induction n generalizing s' u with
  | zero =>
    obtain ⟨-, rfl⟩ := pure_ok.1 run
    exact ⟨.zero _, fun p hp => absurd hp (Nat.not_lt_zero p)⟩
  | succ n ih =>
    rw [List.range_succ, List.map_append, runInstructions_append, bind_ok] at run
    obtain ⟨_, s₁, before, last⟩ := run
    obtain ⟨_, s₂, last, ended⟩ := bind_ok.1 last
    obtain ⟨-, rfl⟩ := pure_ok.1 ended
    obtain ⟨upTo, each⟩ := ih (by omega) before
    have word : (UInt32.ofNat n).toNat = n := toNat_word (by omega)
    have here : UpTo c s₀ (UInt32.ofNat n).toNat s₁ := by rwa [word]
    have writes := (Writes.solveInstruction c hints (.ofNat n)).ok last
    have after := here.succ hp begun last
    rw [word] at after
    refine ⟨after, fun p hp => ?_⟩
    by_cases isLast : p = n
    · subst isLast
      exact ⟨s₁, s', here, last, .refl _ _ s'⟩
    · obtain ⟨t₁, t₂, upTo, run, later⟩ := each p (by omega)
      exact ⟨t₁, t₂, upTo, run,
        later.trans (writes.mono (Set.subset_univ _) (Set.subset_univ _))⟩

/-! ## Another order -/

/-- A state of a run in another order: what the given instructions solve is as it is at the end of
    the first run, and so are their rows. -/
structure Replayed (c : Circuit F) (s₀ s' : State F) (ran : Set ℕ) (t : State F) : Prop where
  fills : Fills (c.settledBy ran) (c.rowsBy ran) s₀ t
  values : ∀ i ∈ c.settledBy ran, ∃ v, t.values[i]? = some (some v) ∧
    s'.values[i]? = some (some v)
  rows : ∀ k ∈ c.rowsBy ran, ∃ row, t.rows[k]? = some (some row) ∧ s'.rows[k]? = some (some row)

theorem Replayed.begin (s₀ s' : State F) : Replayed c s₀ s' ∅ s₀ := by
  refine ⟨.refl _ _ s₀, ?_, ?_⟩
  · rintro i ⟨p, hp, -⟩
    exact absurd hp (Set.notMem_empty p)
  · rintro k ⟨p, hp, -⟩
    exact absurd hp (Set.notMem_empty p)

variable {ran : Set ℕ} {index : UInt32}

/-- An instruction finds in another order what it found in the order of addition, if all that
    precede it have run. -/
theorem Replayed.agree (wf : c.WellFormed) (small : c.instructions.length ≤ wordRange)
    (begun : Begun c s₀) (upTo : UpTo c s₀ index.toNat s₁)
    (run : (solveInstruction c hints index).run s₁ = .ok () s₂) (after : Fills .univ .univ s₂ s')
    (h : Replayed c s₀ s' ran t) (fresh : index.toNat ∉ ran)
    (before : ∀ p, c.Precedes p index.toNat → p ∈ ran) :
    Agree (c.lookedAt index.toNat) (c.ownRow index.toNat) s₁ t := by
  have writes := (Writes.solveInstruction c hints index).ok run
  refine ⟨by rw [upTo.fills.values.1, h.fills.values.1],
    by rw [upTo.fills.rows.1, h.fills.rows.1], fun i look => ?_, fun k own => ?_⟩
  · have wire : ∃ x : WireId, x.toNat = i := by
      obtain ⟨op, -, x, -, same⟩ := look
      exact ⟨x, same⟩
    obtain ⟨x, rfl⟩ := wire
    by_cases settled : x.toNat ∈ c.settledBy ran
    · -- It had its last value then, and has it now.
      obtain ⟨v, valueAt, last⟩ := h.values _ settled
      obtain ⟨p, mem, y, solves, same⟩ := settled
      obtain rfl := UInt32.toNat_inj.1 same
      have other : p ≠ index.toNat := by
        rintro rfl
        exact fresh mem
      obtain ⟨v', valueBefore⟩ := upTo.solved_of_looked begun run look solves other
      have later := after.values.keeps (writes.values.keeps valueBefore)
      rw [last, Option.some.injEq, Option.some.injEq] at later
      rw [valueAt, valueBefore, later]
    · -- It was not solved by then, nor is it now.
      rw [h.fills.values.outside settled]
      refine upTo.outside fun p lt solves => settled ?_
      exact ⟨p, before p ⟨lt, x, look, solves⟩, x, solves, rfl⟩
  · have noRow : k ∉ c.rowsBy ran := by
      rintro ⟨p, mem, own'⟩
      rw [Circuit.ownRow_injective wf small own' own] at mem
      exact fresh mem
    have noRow' : k ∉ { k | ∃ p < index.toNat, k ∈ c.ownRow p } := by
      rintro ⟨p, lt, own'⟩
      rw [Circuit.ownRow_injective wf small own' own] at lt
      exact Nat.lt_irrefl _ lt
    rw [h.fills.rows.outside noRow, upTo.fills.rows.outside noRow']

/-- What an instruction finds unsolved and may fill is solved by it or by one that precedes it. -/
theorem Replayed.settles (begun : Begun c s₀) (h : Replayed c s₀ s' ran t)
    (before : ∀ p, c.Precedes p index.toNat → p ∈ ran) {i : ℕ} (fill : i ∈ c.fillable index.toNat)
    (empty : t.values[i]? = some none) : i ∈ c.settledBy (insert index.toNat ran) := by
  have wire : ∃ x : WireId, x.toNat = i := by
    obtain ⟨op, -, x, -, same⟩ := fill
    exact ⟨x, same⟩
  obtain ⟨x, rfl⟩ := wire
  have noInput : c.inputCount ≤ x.toNat := by
    by_contra input
    have solved := (begun.inputs x (by omega)).of_fills h.fills
    exact solved.ne_unsolved empty
  obtain ⟨p, le, solves⟩ := Circuit.exists_solves noInput fill
  refine ⟨p, ?_, x, solves, rfl⟩
  by_cases last : p = index.toNat
  · exact .inl last
  · exact .inr (before p ⟨by omega, x, Circuit.fillable_subset _ fill, solves⟩)

/-- One more instruction in another order. -/
theorem Replayed.step (hp : F.IsPrime) (wf : c.WellFormed) (leveled : c.Leveled level)
    (small : c.instructions.length ≤ wordRange) (begun : Begun c s₀)
    (bound : index.toNat < c.instructions.length) (inOrder : RanInOrder c hints s₀ s' index)
    (h : Replayed c s₀ s' ran t) (fresh : index.toNat ∉ ran)
    (before : ∀ p, c.Precedes p index.toNat → p ∈ ran) :
    ∃ t', (solveInstruction c hints index).run t = .ok () t' ∧
      Replayed c s₀ s' (insert index.toNat ran) t' := by
  obtain ⟨s₁, s₂, upTo, run, after⟩ := inOrder
  have size : s₁.values.length = c.wireCount := by rw [upTo.fills.values.1, begun.size]
  have similar := solveInstruction_similar hp leveled hints bound size
    (h.agree wf small begun upTo run after fresh before)
  rw [run] at similar
  obtain ⟨t', run', agree⟩ := similar.of_ok
  have writes := (Writes.solveInstruction c hints index).ok run'
  have grow : ran ⊆ insert index.toNat ran := Set.subset_insert _ _
  refine ⟨t', run', ?_, ?_, ?_⟩
  · refine (h.fills.mono (Circuit.settledBy_mono grow) (Circuit.rowsBy_mono grow)).trans
      ⟨writes.values.restrict fun _ => h.settles begun before, writes.rows.mono ?_, writes.counted⟩
    intro k own
    exact ⟨_, Set.mem_insert _ _, own⟩
  · rintro i ⟨p, mem, x, solves, rfl⟩
    obtain rfl | mem := Set.mem_insert_iff.1 mem
    · obtain ⟨v, solved⟩ := solveInstruction_settles hp run solves.2.1
      refine ⟨v, ?_, after.values.keeps solved⟩
      rw [← agree.values _ (Circuit.fillable_subset _ solves.2.1), solved]
    · obtain ⟨v, valueAt, last⟩ := h.values _ ⟨p, mem, x, solves, rfl⟩
      exact ⟨v, writes.values.keeps valueAt, last⟩
  · rintro k ⟨p, mem, own⟩
    obtain rfl | mem := Set.mem_insert_iff.1 mem
    · obtain ⟨row, recorded⟩ := solveInstruction_records hp run own
      refine ⟨row, ?_, after.rows.keeps recorded⟩
      rw [← agree.rows k own, recorded]
    · obtain ⟨row, valueAt, last⟩ := h.rows k ⟨p, mem, own⟩
      exact ⟨row, writes.rows.keeps valueAt, last⟩

/-- The numbers of the instructions in a list. -/
def numbersOf (l : List UInt32) : Set ℕ := { p | ∃ index ∈ l, index.toNat = p }

theorem insert_union_numbersOf (ran : Set ℕ) (index : UInt32) (l : List UInt32) :
    insert index.toNat ran ∪ numbersOf l = ran ∪ numbersOf (index :: l) := by
  ext p
  simp only [numbersOf, Set.mem_union, Set.mem_insert_iff, Set.mem_ofPred_eq, List.mem_cons,
    exists_eq_or_imp]
  rw [eq_comm]
  tauto

theorem Replayed.run (hp : F.IsPrime) (wf : c.WellFormed) (leveled : c.Leveled level)
    (small : c.instructions.length ≤ wordRange) (begun : Begun c s₀) {l : List UInt32}
    (bound : ∀ index ∈ l, index.toNat < c.instructions.length) (nodup : l.Nodup)
    (inOrder : ∀ index ∈ l, RanInOrder c hints s₀ s' index)
    (order : l.Pairwise fun q p => ¬ c.Precedes p.toNat q.toNat)
    (h : Replayed c s₀ s' ran t) (fresh : ∀ index ∈ l, index.toNat ∉ ran)
    (before : ∀ index ∈ l, ∀ p, c.Precedes p index.toNat → p ∈ ran ∪ numbersOf l) :
    ∃ t', (runInstructions c hints l).run t = .ok () t' ∧
      Replayed c s₀ s' (ran ∪ numbersOf l) t' := by
  induction l generalizing ran t with
  | nil =>
    have nothingMore : ran ∪ numbersOf [] = ran := by
      ext p
      simp [numbersOf]
    exact ⟨t, rfl, by rwa [nothingMore]⟩
  | cons index l ih =>
    obtain ⟨absent, nodup⟩ := List.nodup_cons.1 nodup
    obtain ⟨first, order⟩ := List.pairwise_cons.1 order
    have here (p : ℕ) (precedes : c.Precedes p index.toNat) : p ∈ ran := by
      obtain mem | ⟨q, mem, rfl⟩ := before index List.mem_cons_self p precedes
      · exact mem
      · rcases List.mem_cons.1 mem with rfl | mem
        · exact absurd precedes.1 (Nat.lt_irrefl _)
        · exact absurd precedes (first q mem)
    obtain ⟨t₁, run, h₁⟩ := h.step hp wf leveled small begun (bound index List.mem_cons_self)
      (inOrder index List.mem_cons_self) (fresh index List.mem_cons_self) here
    obtain ⟨t', rest, h'⟩ := ih (fun q hq => bound q (List.mem_cons_of_mem index hq)) nodup
      (fun q hq => inOrder q (List.mem_cons_of_mem index hq)) order h₁
      (fun q hq inserted => by
        obtain same | mem := Set.mem_insert_iff.1 inserted
        · exact toNat_ne_of_notMem hq absent same
        · exact fresh q (List.mem_cons_of_mem index hq) mem)
      (fun q hq p precedes => by
        rw [insert_union_numbersOf]
        exact before q (List.mem_cons_of_mem index hq) p precedes)
    rw [insert_union_numbersOf] at h'
    refine ⟨t', ?_, h'⟩
    rw [runInstructions, EStateM.run_bind, run]
    exact rest

/-- When all instructions have run, the state agrees with that of the first run. -/
theorem Replayed.agree_all (upTo : UpTo c s₀ c.instructions.length s')
    (h : Replayed c s₀ s' { p | p < c.instructions.length } t) : Agree .univ .univ s' t := by
  refine ⟨by rw [upTo.fills.values.1, h.fills.values.1],
    by rw [upTo.fills.rows.1, h.fills.rows.1], fun i _ => ?_, fun k _ => ?_⟩
  · by_cases settled : i ∈ c.settledBy { p | p < c.instructions.length }
    · obtain ⟨v, valueAt, last⟩ := h.values i settled
      rw [valueAt, last]
    · rw [h.fills.values.outside settled]
      by_cases fill : ∃ p < c.instructions.length, i ∈ c.fillable p
      · obtain ⟨p, -, op, -, x, -, rfl⟩ := fill
        exact upTo.outside fun q lt solves => settled ⟨q, lt, x, solves, rfl⟩
      · exact upTo.fills.values.outside fill
  · by_cases own : k ∈ c.rowsBy { p | p < c.instructions.length }
    · obtain ⟨row, valueAt, last⟩ := h.rows k own
      rw [valueAt, last]
    · rw [h.fills.rows.outside own]
      exact upTo.fills.rows.outside own

/-- If a run in the order of addition ends well, so does one in any other order in which what
    solves a wire still comes before all that look at it; and the states agree in which they end. -/
theorem reordered_ok (hp : F.IsPrime) (wf : c.WellFormed) (leveled : c.Leveled level)
    (small : c.instructions.length ≤ wordRange) (begun : Begun c s₀) {u : Unit}
    (run : (runInstructions c hints c.inOrder).run s₀ = .ok u s') {l : List UInt32}
    (all : ∀ index : UInt32, index ∈ l ↔ index.toNat < c.instructions.length) (nodup : l.Nodup)
    (order : l.Pairwise fun q p => ¬ c.Precedes p.toNat q.toNat) :
    ∃ t, (runInstructions c hints l).run s₀ = .ok () t ∧ Agree .univ .univ s' t := by
  obtain ⟨upTo, each⟩ := runs_inOrder hp begun small (Nat.le_refl _) run
  have word {p : ℕ} (hp : p < c.instructions.length) : (UInt32.ofNat p).toNat = p :=
    toNat_word (Nat.lt_of_lt_of_le hp small)
  have numbers : ∅ ∪ numbersOf l = { p | p < c.instructions.length } := by
    ext p
    rw [Set.empty_union]
    constructor
    · rintro ⟨index, mem, rfl⟩
      exact (all index).1 mem
    · intro lt
      exact ⟨UInt32.ofNat p, (all _).2 (by rwa [word lt]), word lt⟩
  obtain ⟨t, run', h⟩ := Replayed.run hp wf leveled small begun (fun q hq => (all q).1 hq) nodup
    (fun q hq => by
      have inOrder := each q.toNat ((all q).1 hq)
      rwa [UInt32.ofNat_toNat] at inOrder)
    order (Replayed.begin s₀ s') (fun q _ => Set.notMem_empty _)
    (fun q hq p precedes => by
      rw [numbers]
      exact Nat.lt_trans precedes.1 ((all q).1 hq))
  rw [numbers] at h
  exact ⟨t, run', h.agree_all upTo⟩

end Solver

end CircuitWitness
