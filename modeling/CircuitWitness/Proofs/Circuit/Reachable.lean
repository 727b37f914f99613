import CircuitWitness.Proofs.Circuit.Edits
import CircuitWitness.Proofs.Circuit.Schedules
import Mathlib.Data.Set.Basic

/-!
# Circuits that can come about

A circuit starts empty or is read from bytes, and is then edited. Whatever the edits are, its
constraints are numbered in the order of its instructions, and its levels hold every instruction.

Results:
* `replay_eq_ok`: which schedules are replayed, and what the levels are.
* `checkInstructions_eq_ok`, `validate_eq_ok`: what the checks of reading say.
* `Checked.of_read`: a circuit that was read passes the checks.
* `Reachable.wellFormed`: what holds of every circuit that can come about.
-/

namespace CircuitWitness

variable {F : PrimeField}

namespace Circuit

/-- A circuit that was made by edits from an empty one or from one that was read. -/
inductive Reachable : Circuit F → Prop where
  | empty (kind : CircuitKind) : Reachable (.empty F kind)
  | read {bytes : Bytes} {c : Circuit F} (accepted : ofBytes bytes = .ok c) : Reachable c
  | edit {c : Circuit F} (e : Edit F) (before : Reachable c) : Reachable (e.apply c)

/-- A circuit that was made by edits from an empty one, its levels by itself. -/
inductive Built : Circuit F → Prop where
  | empty (kind : CircuitKind) : Built (.empty F kind)
  | edit {c : Circuit F} (e : Edit F) (automatic : e.isAutomatic) (before : Built c) :
    Built (e.apply c)

theorem Built.reachable {c : Circuit F} (h : Built c) : Reachable c := by
  induction h with
  | empty kind => exact .empty kind
  | edit e _ _ ih => exact .edit e ih

theorem Reachable.edits {c : Circuit F} (h : Reachable c) (l : List (Edit F)) :
    Reachable (l.foldl Edit.apply c) := by
  induction l generalizing c with
  | nil => exact h
  | cons e l ih => exact ih (.edit e h)

theorem Built.edits {c : Circuit F} (h : Built c) {l : List (Edit F)}
    (automatic : ∀ e ∈ l, e.isAutomatic) : Built (l.foldl Edit.apply c) := by
  induction l generalizing c with
  | nil => exact h
  | cons e l ih =>
    have first := Built.edit e (automatic e List.mem_cons_self) h
    exact ih first fun e' he' => automatic e' (List.mem_cons_of_mem e he')

/-! ## The numbers of constraints -/

/-- Whether an instruction stands for a constraint. -/
def isConstraint (c : Circuit F) (i : Instruction) : Bool :=
  match c.blueprints[i.blueprint.toNat]? with
  | some b => b.kind ≠ .hint
  | none => false

/-- The number of constraints among the first `p` instructions. -/
def constraintsBefore (c : Circuit F) (p : ℕ) : ℕ := (c.instructions.take p).countP c.isConstraint

/-- The instructions are of known blueprints and numbered in order, and they are all leveled. -/
structure WellFormed (c : Circuit F) : Prop where
  blueprint : ∀ i ∈ c.instructions, ∃ b, c.blueprintAt i.blueprint = .ok b ∧ c.kind.allows b.kind
  number : ∀ p i, c.instructions[p]? = some i → i.constraint = UInt32.ofNat (c.constraintsBefore p)
  count : c.constraintCount = c.instructions.countP c.isConstraint
  scheduled : ∀ p < c.instructions.length, UInt32.ofNat p ∈ c.levels.schedule.flatten

theorem blueprintAt_ok {c : Circuit F} {id : BlueprintId} {b : Blueprint} :
    c.blueprintAt id = .ok b ↔ c.blueprints[id.toNat]? = some b := by
  unfold blueprintAt
  cases c.blueprints[id.toNat]? <;> simp

theorem blueprintFor_ok {c : Circuit F} {id : BlueprintId} {kind : InstructionKind}
    {b : Blueprint} : c.blueprintFor id kind = .ok b ↔
      c.blueprintAt id = .ok b ∧ b.kind = kind ∧ c.kind.allows b.kind := by
  constructor
  · intro h
    obtain ⟨b', found, h⟩ := except_bind_ok.1 h
    by_cases same : b'.kind = kind
    · rw [if_neg (not_not.2 same)] at h
      by_cases allowed : c.kind.allows b'.kind
      · rw [if_neg (by simp [allowed])] at h
        obtain rfl := Except.ok.inj h
        exact ⟨found, same, allowed⟩
      · rw [if_pos (by simp [allowed])] at h
        cases h
    · rw [if_pos same] at h
      cases h
  · rintro ⟨found, rfl, allowed⟩
    simp only [blueprintFor, found, allowed, bind, Except.bind, ne_eq, not_true_eq_false,
      Bool.not_true, Bool.false_eq_true, if_false]
    rfl

theorem constraintCount_eq (b : Blueprint) :
    b.constraintCount = if b.kind ≠ .hint then 1 else 0 := by
  cases b <;> rfl

/-- Instructions of known blueprints mean the same in a circuit with more blueprints. -/
theorem isConstraint_of_prefix {c c' : Circuit F} (h : c.blueprints <+: c'.blueprints)
    {i : Instruction} {b : Blueprint} (known : c.blueprintAt i.blueprint = .ok b) :
    c'.isConstraint i = c.isConstraint i := by
  rw [blueprintAt_ok] at known
  obtain ⟨bound, -⟩ := List.getElem?_eq_some_iff.1 known
  obtain ⟨more, same⟩ := h
  simp only [isConstraint, ← same, List.getElem?_append_left bound]

theorem blueprintAt_of_prefix {c c' : Circuit F} (h : c.blueprints <+: c'.blueprints)
    {id : BlueprintId} {b : Blueprint} (known : c.blueprintAt id = .ok b) :
    c'.blueprintAt id = .ok b := by
  rw [blueprintAt_ok] at known ⊢
  obtain ⟨bound, -⟩ := List.getElem?_eq_some_iff.1 known
  obtain ⟨more, same⟩ := h
  rw [← same, List.getElem?_append_left bound, known]

theorem WellFormed.grown {c c' : Circuit F} (h : WellFormed c) (grown : Grown c c') :
    WellFormed c' := by
  have same : ∀ i ∈ c.instructions, c'.isConstraint i = c.isConstraint i := by
    intro i hi
    obtain ⟨b, known, -⟩ := h.blueprint i hi
    exact isConstraint_of_prefix grown.blueprints known
  refine ⟨fun i hi => ?_, fun p i found => ?_, ?_, fun p hp => ?_⟩
  · rw [grown.instructions] at hi
    obtain ⟨b, known, allowed⟩ := h.blueprint i hi
    exact ⟨b, blueprintAt_of_prefix grown.blueprints known, by rwa [grown.kind]⟩
  · rw [grown.instructions] at found
    rw [h.number p i found, constraintsBefore, constraintsBefore, grown.instructions]
    congr 1
    exact (List.countP_congr fun j hj => by rw [same j (List.mem_of_mem_take hj)]).symm
  · rw [grown.constraintCount, grown.instructions, h.count]
    exact (List.countP_congr fun j hj => by rw [same j hj]).symm
  · rw [grown.instructions] at hp
    rw [grown.levels]
    exact h.scheduled p hp

/-! ## Replaying -/

/-- Notes the wires that an instruction is the first to touch, for its level. -/
def note (c : Circuit F) (m : OrderedMap WireId ℕ) (x : Instruction × ℕ) :
    Except Error (OrderedMap WireId ℕ) := do
  let op ← c.operationOf x.1
  return Levels.define c.inputCount x.2 m op.defines

theorem replay_eq_ok {c : Circuit F} {schedule : List (List UInt32)} {levels : Levels} :
    c.replay schedule = .ok levels ↔ levels.schedule = schedule ∧
      ∃ table, Levels.Accepted schedule c.instructions.length table ∧
        (c.instructions.zip table).foldlM c.note .empty = .ok levels.definedAt := by
  constructor
  · intro h
    obtain ⟨table, accepted, rest⟩ := except_bind_ok.1 h
    obtain ⟨definedAt, noted, last⟩ := except_bind_ok.1 rest
    obtain rfl := Except.ok.inj last
    exact ⟨rfl, table, Levels.instructionLevels_ok (except_mapError_ok.1 accepted), noted⟩
  · rintro ⟨rfl, table, accepted, noted⟩
    refine except_bind_ok.2 ⟨table, ?_, except_bind_ok.2 ⟨levels.definedAt, noted, rfl⟩⟩
    exact except_mapError_ok.2 accepted.instructionLevels_eq

/-- A schedule that is replayed is the one of the levels, and holds every instruction once. -/
theorem replay_ok {c : Circuit F} {schedule : List (List UInt32)} {levels : Levels}
    (h : c.replay schedule = .ok levels) : levels.schedule = schedule ∧
      ∃ table, Levels.Accepted schedule c.instructions.length table := by
  obtain ⟨same, table, accepted, -⟩ := replay_eq_ok.1 h
  exact ⟨same, table, accepted⟩

theorem WellFormed.replayed {c : Circuit F} (h : WellFormed c) {schedule : List (List UInt32)}
    {levels : Levels} (replayed : c.replay schedule = .ok levels) :
    WellFormed { c with levels } := by
  obtain ⟨rfl, table, accepted⟩ := replay_ok replayed
  exact ⟨h.blueprint, h.number, h.count, fun p hp => accepted.mem_of_lt hp⟩

/-! ## Edits -/

theorem WellFormed.appended {c c' : Circuit F} (h : WellFormed c) {id : BlueprintId}
    {b : Blueprint} {start : UInt64} (found : c.blueprintAt id = .ok b)
    (allowed : c.kind.allows b.kind) (kind : c'.kind = c.kind)
    (blueprints : c'.blueprints = c.blueprints)
    (instructions : c'.instructions
      = c.instructions ++ [⟨id, UInt32.ofNat c.constraintCount, start⟩])
    (count : c'.constraintCount = c.constraintCount + b.constraintCount)
    (schedule : ∀ x, x = c.nextIndex ∨ x ∈ c.levels.schedule.flatten →
      x ∈ c'.levels.schedule.flatten) : WellFormed c' := by
  have same (i : Instruction) : c'.isConstraint i = c.isConstraint i := by
    simp only [isConstraint, blueprints]
  have same' : c'.isConstraint = c.isConstraint := funext same
  refine ⟨fun i hi => ?_, fun p i found => ?_, ?_, fun p hp => ?_⟩
  · rw [instructions, List.mem_append, List.mem_singleton] at hi
    rw [kind]
    simp only [blueprintAt, blueprints]
    obtain hi | rfl := hi
    · exact h.blueprint i hi
    · exact ⟨b, found, allowed⟩
  · rw [instructions] at found
    rw [constraintsBefore, instructions, same']
    by_cases hp : p < c.instructions.length
    · rw [List.getElem?_append_left hp] at found
      rw [List.take_append_of_le_length (Nat.le_of_lt hp)]
      exact h.number p i found
    · rw [List.getElem?_append_right (by omega), List.getElem?_singleton] at found
      split at found
      · obtain rfl := Option.some.inj found
        rw [show p = c.instructions.length by omega, List.take_left, ← h.count]
      · simp at found
  · rw [count, instructions, same', List.countP_append, h.count, constraintCount_eq]
    rw [blueprintAt_ok] at found
    simp [isConstraint, found]
  · rw [instructions, List.length_append, List.length_singleton] at hp
    by_cases old : p < c.instructions.length
    · exact schedule _ (.inr (h.scheduled p old))
    · exact schedule _ (.inl (by rw [nextIndex, show p = c.instructions.length by omega]))

theorem WellFormed.edited {c c' : Circuit F} {e : Edit F} (h : WellFormed c)
    (outcome : Edit.Outcome c e c') : WellFormed c' := by
  cases outcome with
  | grown grown => exact h.grown grown
  | r1c found _ _ =>
    obtain ⟨known, -, allowed⟩ := blueprintFor_ok.1 found
    exact h.appended known allowed rfl rfl rfl rfl fun x => Levels.mem_place.2
  | gate found _ _ _ =>
    obtain ⟨known, -, allowed⟩ := blueprintFor_ok.1 found
    exact h.appended known allowed rfl rfl rfl rfl fun x => Levels.mem_place.2
  | hint found _ _ _ =>
    obtain ⟨known, -, allowed⟩ := blueprintFor_ok.1 found
    exact h.appended known allowed rfl rfl rfl rfl fun x => Levels.mem_place.2
  | levels replayed => exact h.replayed replayed

/-! ## Reading -/

theorem orBroken_ok {α : Type} {x : Except FormatRule α} {bytes bytes' : Bytes} {a : α}
    (h : (orBroken x).run bytes = .ok a bytes') : x = .ok a := by
  cases x with
  | ok a' =>
    obtain ⟨rfl, -⟩ := pure_ok.1 h
    rfl
  | error rule => cases h

theorem require_ok {rule : FormatRule} {holds : Bool} {bytes bytes' : Bytes} {u : Unit}
    (h : (Decoder.require rule holds).run bytes = .ok u bytes') : holds := by
  cases holds with
  | true => rfl
  | false => cases h

theorem filter_ok {α : Type} {codec : Codec α} {rule : FormatRule} {holds : α → Bool}
    {bytes bytes' : Bytes} {a : α} (h : (codec.filter rule holds).read.run bytes = .ok a bytes') :
    holds a := by
  obtain ⟨a', s, -, h⟩ := bind_ok.1 h
  obtain ⟨_, s', kept, h⟩ := bind_ok.1 h
  obtain ⟨rfl, -⟩ := pure_ok.1 h
  exact require_ok kept

/-- A circuit that was read is one whose locations name functions and that passed all checks, with
    the levels of the schedule. -/
theorem ofBytes_checked {bytes : Bytes} {c : Circuit F} (h : ofBytes bytes = .ok c) :
    ∃ (c₀ : Circuit F) (schedule : List (List UInt32)),
      c₀.symbols.wellFormed ∧ c₀.checked schedule = .ok c := by
  unfold ofBytes at h
  split at h
  · next c' decoded =>
    obtain rfl := Except.ok.inj h
    simp only [Codec.decode, codec, read] at decoded
    iterate 19 obtain ⟨_, _, -, decoded⟩ := bind_ok.1 decoded
    obtain ⟨symbols, _, known, decoded⟩ := bind_ok.1 decoded
    obtain ⟨_, _, -, decoded⟩ := bind_ok.1 decoded
    have wellFormed : symbols.wellFormed := filter_ok known
    refine ⟨_, _, ?_, orBroken_ok decoded⟩
    exact wellFormed
  · cases h
  · cases h

/-- An instruction that passes the checks: its blueprint is known and allowed, it carries its
    number, and it can be decoded to an operation whose ids are in range. -/
structure Admissible (c : Circuit F) (number : ℕ) (i : Instruction) : Prop where
  blueprint : ∃ b, c.blueprintAt i.blueprint = .ok b ∧ c.kind.allows b.kind
  number : i.constraint.toNat = number
  operation : ∃ op, c.operationOf i = .ok op ∧ c.checkOperation op = .ok ()

theorem checkInstructions_cons {c : Circuit F} {count total : ℕ} {i : Instruction}
    {l : List Instruction} : c.checkInstructions count (i :: l) = .ok total ↔
      c.Admissible count i ∧
        c.checkInstructions (count + [i].countP c.isConstraint) l = .ok total := by
  have one {b : Blueprint} (found : c.blueprints[i.blueprint.toNat]? = some b) :
      [i].countP c.isConstraint = b.constraintCount := by
    rw [constraintCount_eq]
    simp [isConstraint, found]
  constructor
  · intro h
    unfold checkInstructions at h
    split at h
    · cases h
    · next b found =>
      rw [one found]
      split at h
      · cases h
      · next allowed =>
        split at h
        · cases h
        · next number =>
          split at h
          · cases h
          · next accepted =>
            obtain ⟨op, operation, accepted⟩ := except_bind_ok.1 accepted
            exact ⟨⟨⟨b, blueprintAt_ok.2 found, by simpa using allowed⟩, not_not.1 number, op,
              operation, accepted⟩, h⟩
  · rintro ⟨⟨⟨b, found, allowed⟩, number, op, operation, accepted⟩, rest⟩
    rw [blueprintAt_ok] at found
    rw [one found] at rest
    have checked : (c.operationOf i >>= c.checkOperation) = .ok () :=
      except_bind_ok.2 ⟨op, operation, accepted⟩
    simp only [checkInstructions, found, allowed, number, checked, Bool.not_true,
      Bool.false_eq_true, if_false, ne_eq, not_true_eq_false, rest]

/-- Instructions pass the checks if each of them does. -/
theorem checkInstructions_eq_ok {c : Circuit F} {count total : ℕ} {l : List Instruction} :
    c.checkInstructions count l = .ok total ↔ total = count + l.countP c.isConstraint ∧
      ∀ (p : ℕ) (i : Instruction), l[p]? = some i →
        c.Admissible (count + (l.take p).countP c.isConstraint) i := by
  induction l generalizing count with
  | nil => simp [checkInstructions, eq_comm]
  | cons i l ih =>
    have split (l' : List Instruction) : (i :: l').countP c.isConstraint
        = [i].countP c.isConstraint + l'.countP c.isConstraint := by
      rw [← List.countP_append]
      rfl
    rw [checkInstructions_cons, ih, split l, Nat.add_assoc]
    constructor
    · rintro ⟨first, total, rest⟩
      refine ⟨total, fun p j found => ?_⟩
      cases p with
      | zero =>
        obtain rfl := Option.some.inj found
        exact first
      | succ p =>
        rw [List.take_succ_cons, split (l.take p), ← Nat.add_assoc]
        exact rest p j found
    · rintro ⟨total, each⟩
      refine ⟨each 0 i rfl, total, fun p j found => ?_⟩
      have here := each (p + 1) j found
      rwa [List.take_succ_cons, split (l.take p), ← Nat.add_assoc] at here

/-- A circuit in which one is an input has inputs. -/
theorem inputCount_pos {c : Circuit F} (one : c.publicNames.head? = some oneName) :
    0 < c.inputCount := by
  have somePublic : 0 < c.publicNames.length :=
    List.length_pos_of_mem (List.mem_of_mem_head? one)
  exact Nat.lt_of_lt_of_le somePublic (Nat.le_add_right _ _)

/-- What the checks of a circuit say. -/
theorem validate_eq_ok {c : Circuit F} : c.validate = .ok () ↔
    (c.kind = .r1cs → c.publicNames.head? = some oneName) ∧
      c.checkInstructions 0 c.instructions = .ok c.constraintCount ∧
      ∀ e ∈ c.descriptionOf.entries,
        e.1.toNat < c.constraintCount ∧ e.2.toNat < c.descriptions.length := by
  unfold validate
  by_cases one : c.kind = .r1cs ∧ c.publicNames.head? ≠ some oneName
  · rw [if_pos one]
    constructor
    · intro h
      cases h
    · rintro ⟨h, -⟩
      exact absurd (h one.1) one.2
  · rw [if_neg one]
    have one' : c.kind = .r1cs → c.publicNames.head? = some oneName := by
      intro kind
      by_contra other
      exact one ⟨kind, other⟩
    constructor
    · intro h
      obtain ⟨count, checked, rest⟩ := except_bind_ok.1 h
      dsimp only at rest
      split at rest
      · cases rest
      · next same =>
        obtain rfl := not_not.1 same
        refine ⟨one', checked, fun e he => ?_⟩
        split at rest
        · cases rest
        · next clean =>
          by_contra out
          refine clean (List.any_eq_true.2 ⟨e, he, ?_⟩)
          simp only [Bool.or_eq_true, decide_eq_true_eq]
          omega
    · rintro ⟨-, checked, clean⟩
      refine except_bind_ok.2 ⟨_, checked, ?_⟩
      simp only [ne_eq, not_true_eq_false, if_false]
      split
      · next out =>
        obtain ⟨e, he, out⟩ := List.any_eq_true.1 out
        have := clean e he
        simp only [Bool.or_eq_true, decide_eq_true_eq] at out
        omega
      · rfl

theorem checkInstructions_withLevels (c : Circuit F) (levels : Levels) (count : ℕ)
    (l : List Instruction) :
    checkInstructions { c with levels } count l = c.checkInstructions count l := by
  induction l generalizing count with
  | nil => rfl
  | cons i l ih =>
    simp only [checkInstructions, ih]
    rfl

/-- The checks do not look at the levels. -/
theorem validate_withLevels (c : Circuit F) (levels : Levels) :
    validate { c with levels } = c.validate := by
  simp only [validate, checkInstructions_withLevels]

/-- A circuit that passes all checks of reading, and whose levels are those of its schedule. -/
structure Checked (c : Circuit F) : Prop where
  valid : c.validate = .ok ()
  replayed : c.replay c.levels.schedule = .ok c.levels

theorem checked_ok {c c' : Circuit F} {schedule : List (List UInt32)}
    (h : c.checked schedule = .ok c') : c'.Checked ∧ ∃ levels, c' = { c with levels } := by
  obtain ⟨_, valid, rest⟩ := except_bind_ok.1 h
  split at rest
  · next levels replayed =>
    obtain rfl := Except.ok.inj rest
    obtain ⟨same, -⟩ := replay_ok replayed
    refine ⟨⟨(validate_withLevels c levels).trans valid, ?_⟩, levels, rfl⟩
    dsimp only
    rw [same]
    exact replayed
  · cases rest

/-- A circuit that was read passes the checks. -/
theorem Checked.of_read {bytes : Bytes} {c : Circuit F} (h : ofBytes bytes = .ok c) :
    c.Checked := by
  obtain ⟨c₀, schedule, -, checked⟩ := ofBytes_checked h
  exact (checked_ok checked).1

/-- The locations of a circuit that was read name functions. -/
theorem wellFormed_of_read {bytes : Bytes} {c : Circuit F} (h : ofBytes bytes = .ok c) :
    c.symbols.wellFormed := by
  obtain ⟨c₀, schedule, known, checked⟩ := ofBytes_checked h
  obtain ⟨-, levels, rfl⟩ := checked_ok checked
  exact known

/-- The schedule of a checked circuit holds every instruction once. -/
theorem Checked.accepted {c : Circuit F} (h : c.Checked) :
    ∃ levels, Levels.Accepted c.levels.schedule c.instructions.length levels :=
  (replay_ok h.replayed).2

theorem Checked.admissible {c : Circuit F} (h : c.Checked) {p : ℕ} {i : Instruction}
    (found : c.instructions[p]? = some i) : c.Admissible (c.constraintsBefore p) i := by
  have each := (checkInstructions_eq_ok.1 (validate_eq_ok.1 h.valid).2.1).2 p i found
  rwa [Nat.zero_add] at each

theorem Checked.wellFormed {c : Circuit F} (h : c.Checked) : WellFormed c := by
  obtain ⟨total, -⟩ := checkInstructions_eq_ok.1 (validate_eq_ok.1 h.valid).2.1
  rw [Nat.zero_add] at total
  obtain ⟨table, accepted⟩ := h.accepted
  refine ⟨fun i hi => ?_, fun p i found => ?_, total, fun p hp => accepted.mem_of_lt hp⟩
  · obtain ⟨p, bound, rfl⟩ := List.getElem_of_mem hi
    exact (h.admissible (List.getElem?_eq_getElem bound)).blueprint
  · rw [← UInt32.ofNat_toNat (x := i.constraint), (h.admissible found).number]

theorem WellFormed.empty (kind : CircuitKind) : WellFormed (empty F kind) :=
  ⟨by simp [Circuit.empty], by simp [Circuit.empty], rfl, by simp [Circuit.empty]⟩

/-- The numbers of constraints and the levels are in order, whatever was done to a circuit. -/
theorem Reachable.wellFormed {c : Circuit F} (h : Reachable c) : WellFormed c := by
  induction h with
  | empty kind => exact .empty kind
  | read accepted => exact (Checked.of_read accepted).wellFormed
  | edit e _ ih => exact ih.edited (e.apply_outcome _)

theorem oneName_edited {c c' : Circuit F} {e : Edit F} (outcome : Edit.Outcome c e c')
    (before : c.kind = .r1cs → c.publicNames.head? = some oneName) (kind : c'.kind = .r1cs) :
    c'.publicNames.head? = some oneName := by
  cases outcome with
  | grown grown =>
    obtain ⟨more, same⟩ := grown.publicNames
    rw [grown.kind] at kind
    rw [← same, List.head?_append, before kind, Option.some_or]
  | r1c | gate | hint | levels => exact before kind

/-- The first public wire of a circuit of rank-one constraints is that of one. -/
theorem Reachable.oneName {c : Circuit F} (h : Reachable c) (kind : c.kind = .r1cs) :
    c.publicNames.head? = some oneName := by
  induction h with
  | empty kind' =>
    obtain rfl : kind' = .r1cs := kind
    rfl
  | read accepted => exact (validate_eq_ok.1 (Checked.of_read accepted).valid).1 kind
  | edit e _ ih => exact oneName_edited (e.apply_outcome _) ih kind

end Circuit

end CircuitWitness
