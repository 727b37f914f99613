import CircuitWitness.Proofs.Circuit.Normalisation

/-!
# Given levels

Levels may be given to a circuit at any time. They are accepted if every instruction stands in
exactly one of them, and nothing else is changed then. A circuit that is given the levels that it
has already stays as it is, with all that is noted for its wires, so what is added later is placed
as if no levels had been given.

Results:
* `Reachable.length_callData_le`: there is room in the buffer for the words of all instructions.
* `Checked.exists_replay`: every arrangement of the instructions is replayed.
* `Reachable.setLevels_iff`: which levels are accepted, and what they change.
-/

namespace CircuitWitness.Circuit

variable {F : PrimeField} {c c' : Circuit F}

/-! ## The length of the buffer -/

/-- The words of an instruction are numbered by a word, and so are those of a circuit that is
    read. -/
theorem Reachable.length_callData_le (h : c.Reachable) :
    c.callData.length ≤ (c.instructions.length + 1) * (wordRange - 1) := by
  induction h with
  | empty kind => exact Nat.zero_le _
  | @read bytes c accepted =>
    obtain ⟨-, zeros, described, named, spelled, -⟩ := read_ok (ofBytes_ok accepted)
    have counted := Codec.length_lt spelled.sections.callData.whole
    calc c.callData.length ≤ wordRange - 1 := Nat.le_sub_one_of_lt counted
      _ ≤ (c.instructions.length + 1) * (wordRange - 1) :=
        Nat.le_mul_of_pos_left _ (Nat.succ_pos _)
  | edit e _ ih =>
    next c _ =>
    obtain grown | ⟨schedule, levels, -, -, same⟩ |
      ⟨op, noted, id, b, words, names, addition, same⟩ := outcome_cases (e.apply_outcome c)
    · rwa [grown.callData, grown.instructions]
    · rwa [same]
    · have counted := Blueprint.lt_of_callDataLength addition.length
      rw [same, length_instructions_added, Nat.succ_mul]
      calc (c.callData ++ words).length = c.callData.length + words.length :=
            List.length_append
        _ ≤ _ := Nat.add_le_add ih (Nat.le_sub_one_of_lt counted)

/-- Where instructions are numbered by words, there are numbers for all places in the buffer. -/
theorem Reachable.buffer_lt (h : c.Reachable) (room : c.instructions.length ≤ wordRange) :
    c.callData.length < 2 ^ 64 :=
  calc c.callData.length ≤ (c.instructions.length + 1) * (wordRange - 1) := h.length_callData_le
    _ ≤ (wordRange + 1) * (wordRange - 1) := Nat.mul_le_mul_right _ (Nat.succ_le_succ room)
    _ < 2 ^ 64 := by decide

/-! ## Replaying -/

/-- Every arrangement of the instructions is replayed. -/
theorem Checked.exists_replay (h : c.Checked) {schedule : List (List UInt32)}
    (arranges : Levels.Arranges schedule c.instructions.length) :
    ∃ levels, c.replay schedule = .ok levels := by
  obtain ⟨table, accepted⟩ := arranges.accepted
  have step : ∀ x ∈ c.instructions.zip table, ∀ m, ∃ m', c.note m x = .ok m' := by
    intro x mem m
    obtain ⟨number, admissible⟩ := h.admissible_of_mem (List.of_mem_zip mem).1
    obtain ⟨op, operation, -⟩ := admissible.operation
    exact ⟨_, by rw [note, operation]; rfl⟩
  obtain ⟨definedAt, noted⟩ := except_foldlM_ok step .empty
  exact ⟨⟨schedule, definedAt⟩, replay_eq_ok.2 ⟨rfl, table, accepted, noted⟩⟩

theorem setLevels_eq_ok {schedule : List (List UInt32)} :
    (setLevels schedule).run c = .ok () c' ↔
      ∃ levels, c.replay schedule = .ok levels ∧ c' = { c with levels } := by
  obtain ⟨e, failed, refused⟩ | ⟨levels, replayed, given⟩ := setLevels_run schedule c
  · simp [failed, refused]
  · simp [replayed, given, eq_comm]

/-- Levels are accepted if each instruction stands in exactly one of them and nothing else does.
    They are then the levels of the circuit, and nothing but the levels is changed. The levels that
    a circuit has already change nothing at all. -/
theorem Reachable.setLevels_iff (h : c.Reachable) :
    (∀ schedule, (∃ c', (setLevels schedule).run c = .ok () c') ↔
        Levels.Arranges schedule c.instructions.length) ∧
      (∀ schedule c', (setLevels schedule).run c = .ok () c' →
        c'.levels.schedule = schedule ∧ c' = { c with levels := c'.levels }) ∧
      (c.instructions.length ≤ wordRange → (setLevels c.levels.schedule).run c = .ok () c) := by
  simp only [setLevels_eq_ok]
  refine ⟨fun schedule => ⟨?_, fun arranges => ?_⟩, ?_, fun room => ?_⟩
  · rintro ⟨c', levels, replayed, -⟩
    obtain ⟨-, table, accepted⟩ := replay_ok replayed
    exact accepted.arranges
  · have room := arranges.le_wordRange
    obtain ⟨levels, replayed⟩ := (h.checked room (h.buffer_lt room)).exists_replay arranges
    exact ⟨_, levels, replayed, rfl⟩
  · rintro schedule c' ⟨levels, replayed, rfl⟩
    exact ⟨(replay_ok replayed).1, rfl⟩
  · exact ⟨c.levels, (h.checked room (h.buffer_lt room)).replayed, rfl⟩

/-- The squares `y` of `x`, `z` of `y` and `w` of `z`. The levels of the first two are given from
    the last to the first, and the third is placed above the second. -/
def reversedCircuit : Circuit .tiny :=
  [.secretInput "x", .internal, .internal, .internal, .blueprint .genericR1C,
    .r1c ⟨[⟨1, 1⟩], [⟨1, 1⟩], [⟨1, 2⟩]⟩ 0, .r1c ⟨[⟨1, 2⟩], [⟨1, 2⟩], [⟨1, 3⟩]⟩ 0,
    .levels [[1], [0]], .r1c ⟨[⟨1, 3⟩], [⟨1, 3⟩], [⟨1, 4⟩]⟩ 0].foldl Edit.apply
      (.empty .tiny .r1cs)

theorem reversedCircuit_setLevels :
    reversedCircuit.levels.schedule = [[1], [0, 2]] ∧
      (setLevels [[1], [0, 2]]).run reversedCircuit = .ok () reversedCircuit ∧
      (∃ c', (setLevels [[2], [], [1, 0]]).run reversedCircuit = .ok () c' ∧
        c'.levels.schedule = [[2], [], [1, 0]]) ∧
      ¬ ∃ c', (setLevels [[0], [1]]).run reversedCircuit = .ok () c' := by
  have facts : (reversedCircuit.instructions.length ≤ wordRange ∧
      reversedCircuit.levels.schedule = [[1], [0, 2]]) ∧
      Levels.Arranges [[2], [], [1, 0]] reversedCircuit.instructions.length ∧
      ¬ Levels.Arranges [[0], [1]] reversedCircuit.instructions.length := by
    decide +kernel
  obtain ⟨⟨small, schedule⟩, arranges, gap⟩ := facts
  have reachable : reversedCircuit.Reachable := Reachable.edits (.empty .r1cs) _
  obtain ⟨accepts, changes, same⟩ := reachable.setLevels_iff
  obtain ⟨c', given⟩ := (accepts _).2 arranges
  refine ⟨schedule, ?_, ⟨c', given, (changes _ c' given).1⟩, fun taken => gap ((accepts _).1 taken)⟩
  rw [← schedule]
  exact same small

end CircuitWitness.Circuit
