import CircuitWitness.Proofs.Circuit.Leveling
import Mathlib.Order.Bounds.Defs

/-!
# Dependencies

An instruction depends on the earlier ones that define a wire it reads. The levels that a circuit
chooses are the lowest that this allows: the level of an instruction is the length of the longest
chain of dependencies that ends at it.

Results:
* `Levels.above_cases`: an instruction is placed at the bottom, or right above one that defines a
  wire it reads.
* `Leveled.dependsOn_last`, `Tight.extended`: an instruction that is added leaves no gap below it.
* `Leveled.le_of_chain`, `Tight.chain`: chains are no longer than the level is high, and one of them
  is as long.
* `Built.longest_chain`: the levels of every circuit that was built without given ones.
-/

namespace CircuitWitness

variable {F : PrimeField}

namespace Levels

theorem foldl_max_cases (levels : List ℕ) (n : ℕ) :
    levels.foldl (fun n l => max n (l + 1)) n = n ∨
      ∃ l ∈ levels, levels.foldl (fun n l => max n (l + 1)) n = l + 1 := by
  induction levels generalizing n with
  | nil => exact .inl rfl
  | cons l levels ih =>
    rw [List.foldl_cons]
    obtain same | ⟨l', mem, above⟩ := ih (max n (l + 1))
    · rw [same]
      obtain lt | le := Nat.lt_or_ge n (l + 1)
      · exact .inr ⟨l, List.mem_cons_self, Nat.max_eq_right (Nat.le_of_lt lt)⟩
      · exact .inl (Nat.max_eq_left le)
    · exact .inr ⟨l', List.mem_cons_of_mem l mem, above⟩

/-- An instruction is placed at the bottom, or right above a level that defines a wire it reads. -/
theorem above_cases (s : Levels) (inputCount : ℕ) (wires : List WireId) :
    s.above inputCount wires = 0 ∨ ∃ x ∈ wires, inputCount ≤ x.toNat ∧
      ∃ l, s.level? x = some l ∧ s.above inputCount wires = l + 1 := by
  obtain zero | ⟨l, mem, above⟩ := foldl_max_cases
    ((wires.filter fun w => inputCount ≤ w.toNat).filterMap s.level?) 0
  · exact .inl zero
  · obtain ⟨x, kept, noted⟩ := List.mem_filterMap.1 mem
    obtain ⟨read, noInput⟩ := List.mem_filter.1 kept
    exact .inr ⟨x, read, of_decide_eq_true noInput, l, noted, above⟩

end Levels

namespace Circuit

variable {c c' : Circuit F} {level : ℕ → ℕ}

/-! ## Chains -/

/-- An instruction depends on an earlier one that defines a wire it reads. -/
def DependsOn (c : Circuit F) (p q : ℕ) : Prop :=
  q < p ∧ ∃ op x, c.operationAt p = some op ∧ x ∈ op.reads ∧ c.Defines q x

/-- The lengths of the chains of dependencies that end at an instruction. -/
inductive Chain (c : Circuit F) : ℕ → ℕ → Prop where
  | one {p : ℕ} (bound : p < c.instructions.length) : Chain c 0 p
  | step {k p q : ℕ} (depends : c.DependsOn p q) (chain : Chain c k q) : Chain c (k + 1) p

/-- A chain climbs at least one level with every dependency. -/
theorem Leveled.le_of_chain (h : c.Leveled level) {k p : ℕ} (chain : c.Chain k p) :
    k ≤ level p := by
  induction chain with
  | one bound => exact Nat.zero_le _
  | step depends _ ih =>
    obtain ⟨lt, op, x, found, mem, defines⟩ := depends
    exact Nat.lt_of_le_of_lt ih (h.order _ op x found mem _ lt defines)

/-! ## Levels without gaps -/

/-- Levels as low as dependencies allow: an instruction stands at the bottom, or right above one on
    which it depends, and there are no empty levels. -/
structure Tight (c : Circuit F) (level : ℕ → ℕ) : Prop extends Leveled c level where
  supported : ∀ p < c.instructions.length,
    level p = 0 ∨ ∃ q, c.DependsOn p q ∧ level p = level q + 1
  occupied : ∀ l < c.levels.schedule.length, ∃ p < c.instructions.length, level p = l

/-- Some chain is as long as the level is high. -/
theorem Tight.chain (h : c.Tight level) {p : ℕ} (hp : p < c.instructions.length) :
    c.Chain (level p) p := by
  -- What supports an instruction was added before it.
  induction p using Nat.strong_induction_on with
  | _ p ih =>
    obtain zero | ⟨q, depends, above⟩ := h.supported p hp
    · rw [zero]
      exact .one hp
    · have lt := depends.1
      rw [above]
      exact .step depends (ih q lt (Nat.lt_trans lt hp))

/-- The level of an instruction is the length of the longest chain that ends at it. -/
theorem Tight.isGreatest (h : c.Tight level) {p : ℕ} (hp : p < c.instructions.length) :
    IsGreatest {k | c.Chain k p} (level p) :=
  ⟨h.chain hp, fun _ chain => h.le_of_chain chain⟩

theorem Tight.empty (kind : CircuitKind) (level : ℕ → ℕ) :
    (Circuit.empty F kind).Tight level :=
  ⟨.empty kind level, fun p hp => absurd hp (Nat.not_lt_zero p),
    fun l hl => absurd hl (Nat.not_lt_zero l)⟩

/-- Dependencies stay when tables grow. -/
theorem DependsOn.grown {p q : ℕ} (depends : c.DependsOn p q) (h : c.Leveled level)
    (grown : Grown c c') : c'.DependsOn p q := by
  obtain ⟨lt, op, x, found, mem, defines⟩ := depends
  have noInput : c'.inputCount ≤ x.toNat := by
    rw [h.inputCount_grown grown defines]
    exact defines.1
  exact ⟨lt, op, x, (h.operationAt_grown grown p).trans found, mem,
    (h.defines_grown grown q noInput).2 defines⟩

theorem Tight.grown (h : c.Tight level) (grown : Grown c c') : c'.Tight level := by
  refine ⟨h.toLeveled.grown grown, fun p hp => ?_, ?_⟩
  · rw [grown.instructions] at hp
    obtain zero | ⟨q, depends, above⟩ := h.supported p hp
    · exact .inl zero
    · exact .inr ⟨q, depends.grown h.toLeveled grown, above⟩
  · rw [grown.levels, grown.instructions]
    exact h.occupied

variable {op : Operation} {noted : List WireId}

/-- Dependencies stay when an instruction is added. -/
theorem DependsOn.extended {p q : ℕ} (depends : c.DependsOn p q) (h : c.Leveled level)
    (ext : Extended c op noted c') : c'.DependsOn p q := by
  obtain ⟨lt, op', x, found, mem, defines⟩ := depends
  exact ⟨lt, op', x, ext.before p op' found, mem, (ext.defines h defines.lt_length x).2 defines⟩

/-- An instruction that is added depends on the one right above which it is placed. -/
theorem Leveled.dependsOn_last (h : c.Leveled level) (ext : Extended c op noted c') :
    c.levels.above c.inputCount op.reads = 0 ∨ ∃ q, c'.DependsOn c.instructions.length q ∧
      c.levels.above c.inputCount op.reads = level q + 1 := by
  obtain zero | ⟨x, mem, noInput, l, definedAt, above⟩ := c.levels.above_cases c.inputCount op.reads
  · exact .inl zero
  · obtain ⟨q, defines, rfl⟩ := (h.noted x noInput l).1 definedAt
    have lt := defines.lt_length
    exact .inr ⟨q, ⟨lt, op, x, ext.last, mem, (ext.defines h lt x).2 defines⟩, above⟩

/-- An instruction that is added leaves no gap below it. -/
theorem Tight.extended (h : c.Tight level) (ext : Extended c op noted c') :
    c'.Tight (Function.update level c.instructions.length
      (c.levels.above c.inputCount op.reads)) := by
  refine ⟨h.toLeveled.extended ext, fun p hp => ?_, fun l hl => ?_⟩
  · obtain lt | rfl := ext.cases hp
    · rw [update_of_lt lt]
      obtain zero | ⟨q, depends, above⟩ := h.supported p lt
      · exact .inl zero
      · have lt' := Nat.lt_trans depends.1 lt
        exact .inr ⟨q, depends.extended h.toLeveled ext, by rw [update_of_lt lt', above]⟩
    · rw [Function.update_self]
      obtain zero | ⟨q, depends, above⟩ := h.dependsOn_last ext
      · exact .inl zero
      · exact .inr ⟨q, depends, by rw [update_of_lt depends.1, above]⟩
  · rw [ext.levels, Levels.commit, Levels.length_place] at hl
    rw [ext.count]
    by_cases lt : l < c.levels.schedule.length
    · obtain ⟨p, hp, onLevel⟩ := h.occupied l lt
      exact ⟨p, by omega, by rw [update_of_lt hp, onLevel]⟩
    · -- The level is new, so it is the one of the new instruction.
      refine ⟨c.instructions.length, by omega, ?_⟩
      rw [Function.update_self]
      obtain zero | ⟨q, depends, above⟩ := h.dependsOn_last ext
      · omega
      · have := h.scheduled.placed q depends.1
        omega

theorem Built.tight (h : c.Built) (small : c.instructions.length ≤ wordRange) :
    ∃ level, c.Tight level :=
  h.exists_level Tight.toLeveled (fun kind => .empty kind _) Tight.grown Tight.extended small

/-- The levels of every circuit that was built without given ones hold each instruction once, and
    each level lists its instructions in order. The level of an instruction is the length of the
    longest chain of dependencies that ends at it. The outputs of a hint are listed once, and the
    hint defines them. Instructions are numbered by words, so there must be no more of them. -/
theorem Built.longest_chain (h : c.Built) (small : c.instructions.length ≤ wordRange) :
    (∀ p < c.instructions.length, ∃ op, c.operationAt p = some op) ∧
      Levels.Arranges c.levels.schedule c.instructions.length ∧
      (∀ (l : ℕ) (indices : List UInt32), c.levels.schedule[l]? = some indices →
        indices ≠ [] ∧ indices.Pairwise (· < ·) ∧
          ∀ index ∈ indices, IsGreatest {k | c.Chain k index.toNat} l) ∧
      ∀ p call, c.operationAt p = some (.hint call) →
        call.outputs.Nodup ∧ ∀ x ∈ call.outputs, c.Defines p x := by
  obtain ⟨level, tight⟩ := h.tight small
  refine ⟨fun p hp => ?_, ?_, fun l indices listed => ?_, fun p call found => ?_⟩
  · obtain ⟨op, found, -⟩ := tight.decodes p hp
    exact ⟨op, found⟩
  · exact Levels.arranges_of_nodup small
      ((schedule_pairwise small tight.scheduled).imp And.right)
      fun index => mem_schedule small tight.scheduled
  · obtain rfl := tight.scheduled.lists l indices listed
    refine ⟨?_, pairwise_indicesAt small, fun index mem => ?_⟩
    · obtain ⟨p, hp, same⟩ := tight.occupied l (List.getElem?_eq_some_iff.1 listed).1
      have word : (UInt32.ofNat p).toNat = p := toNat_word (Nat.lt_of_lt_of_le hp small)
      exact List.ne_nil_of_mem ((mem_indicesAt small).2 (by rw [word]; exact ⟨hp, same⟩))
    · obtain ⟨hp, rfl⟩ := (mem_indicesAt small).1 mem
      exact tight.isGreatest hp
  · exact ⟨tight.once p call found, fun x mem => tight.outputs p call x found mem⟩

/-- The square of an input, its last bit, the square once more, and the product of the two. The last
    two wires are declared when some instructions are there already. -/
def squareBitCircuit : Circuit .tiny :=
  [.secretInput "x", .internal, .internal, .blueprint .genericR1C, .blueprint .genericHint,
    .r1c ⟨[⟨1, 1⟩], [⟨1, 1⟩], [⟨1, 2⟩]⟩ 0, .hint ⟨hintId "bits", [[⟨1, 2⟩]], [3]⟩ "bits" 1,
    .internal, .internal, .r1c ⟨[⟨1, 1⟩], [⟨1, 1⟩], [⟨1, 4⟩]⟩ 0,
    .r1c ⟨[⟨1, 3⟩], [⟨1, 4⟩], [⟨1, 5⟩]⟩ 0].foldl Edit.apply (.empty .tiny .r1cs)

theorem squareBitCircuit_longest_chain :
    squareBitCircuit.levels.schedule = [[0, 2], [1], [3]] ∧
      IsGreatest {k | squareBitCircuit.Chain k 3} 2 ∧ squareBitCircuit.Defines 1 3 := by
  have built : squareBitCircuit.Built := .edits (.empty .r1cs) (by simp [Edit.isAutomatic])
  have facts : squareBitCircuit.instructions.length ≤ wordRange ∧
      squareBitCircuit.levels.schedule = [[0, 2], [1], [3]] ∧
      squareBitCircuit.operationAt 1 = some (.hint ⟨hintId "bits", [[⟨1, 2⟩]], [3]⟩) := by
    decide +kernel
  obtain ⟨small, schedule, hint⟩ := facts
  obtain ⟨-, -, levels, outputs⟩ := built.longest_chain small
  obtain ⟨-, -, chains⟩ := levels 2 [3] (by rw [schedule]; rfl)
  refine ⟨schedule, chains 3 List.mem_cons_self, ?_⟩
  exact (outputs 1 _ hint).2 3 List.mem_cons_self

end Circuit

end CircuitWitness
