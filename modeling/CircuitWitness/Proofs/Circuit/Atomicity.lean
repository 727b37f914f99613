import CircuitWitness.Proofs.Circuit.Additions

/-!
# Refused edits leave no trace

An edit is tried: it succeeds, and may give the number of what it added, or it is refused. A refused
edit leaves the circuit as it was, also where words were packed before the refusal: the buffer, the
instructions and their count, the levels, the names of hints, the descriptions and the logs. An
accepted edit lets tables grow, sets the levels, or adds the one instruction that it asks for.

Results:
* `attempt_run`: what an edit does, refused or accepted.
* `stateAfter_attempt`: applying an edit is trying it.
* `attempt_error`: a refused edit leaves the circuit as it was.
-/

namespace CircuitWitness

variable {F : PrimeField}

namespace Edit

open Circuit

/-- Tries an edit. It gives the number of what it adds, if the operation gives one. -/
def attempt : Edit F → Build F (Option UInt32)
  | .coeff x => some <$> modifyGet (addCoeff · x)
  | .blueprint b => some <$> modifyGet (addBlueprint · b)
  | .location function file line => some <$> modifyGet (addLocation · function file line)
  | .publicInput name => some <$> addPublic name
  | .secretInput name => some <$> addSecret name
  | .internal => some <$> modifyGet addInternal
  | .r1c r id => some <$> addR1C r id
  | .gate g id => some <$> addGate g id
  | .hint h name id => (fun _ => none) <$> addHint h name id
  | .describe constraint entry => (fun _ => none) <$> Circuit.describe constraint entry
  | .log entry => (fun _ => none) <$> addLog entry
  | .levels schedule => (fun _ => none) <$> setLevels schedule

/-- Whether an edit asks for an instruction. -/
def addsInstruction : Edit F → Bool
  | .r1c .. | .gate .. | .hint .. => true
  | _ => false

/-- What an accepted edit gives, and what it makes of the circuit. -/
inductive Accepted (c : Circuit F) : Edit F → Option UInt32 → Circuit F → Prop where
  | grown {e : Edit F} {n : Option UInt32} {c' : Circuit F} (plain : e.addsInstruction = false)
    (grown : Grown c c') (hintNames : c'.hintNames = c.hintNames) : Accepted c e n c'
  | levels {schedule : List (List UInt32)} {levels : Levels}
    (replayed : c.replay schedule = .ok levels) :
    Accepted c (.levels schedule) none { c with levels }
  | r1c {r : R1C} {id : BlueprintId} {b : Blueprint} {noted : List WireId}
    (addition : c.Addition (.r1c r) noted id b r.words) :
    Accepted c (.r1c r id) (some (c.newNumber b))
      (c.added (.r1c r) noted id b r.words c.hintNames)
  | gate {g : Gate} {id : BlueprintId} {b : Blueprint} {noted : List WireId}
    (shape : g.shapeFault? b = none) (addition : c.Addition (.gate (b.recoded g)) noted id b
      (g.words b)) :
    Accepted c (.gate g id) (some (c.newNumber b))
      (c.added (.gate (b.recoded g)) noted id b (g.words b) c.hintNames)
  | hint {h : HintCall} {name : String} {id : BlueprintId} {b : Blueprint} {noted : List WireId}
    (named : c.checkHintName h.hint name = .ok ())
    (addition : c.Addition (.hint h) noted id b h.words) :
    Accepted c (.hint h name id) none
      (c.added (.hint h) noted id b h.words (c.hintNames.insert (hintId name) name))

/-- An edit is refused and changes nothing, or it is accepted. -/
theorem attempt_run (e : Edit F) (c : Circuit F) :
    (∃ err, e.attempt.run c = .error err c) ∨
    ∃ n c', e.attempt.run c = .ok n c' ∧ Accepted c e n c' := by
  have outcome := e.apply_outcome c
  cases e with
  | coeff | blueprint | location | internal =>
    obtain ⟨grown⟩ := outcome
    exact .inr ⟨_, _, rfl, .grown rfl grown rfl⟩
  | publicInput name =>
    obtain ⟨grown⟩ := outcome
    obtain ⟨err, refused⟩ | ⟨-, added⟩ := addPublic_run name c
    · exact .inl ⟨err, map_error refused⟩
    · rw [apply, added] at grown
      exact .inr ⟨_, _, map_ok added, .grown rfl grown rfl⟩
  | secretInput name =>
    obtain ⟨grown⟩ := outcome
    obtain ⟨err, refused⟩ | ⟨-, added⟩ := addSecret_run name c
    · exact .inl ⟨err, map_error refused⟩
    · rw [apply, added] at grown
      exact .inr ⟨_, _, map_ok added, .grown rfl grown rfl⟩
  | describe constraint entry =>
    obtain ⟨grown⟩ := outcome
    obtain ⟨err, refused⟩ | ⟨-, added⟩ := describe_run constraint entry c
    · exact .inl ⟨err, map_error refused⟩
    · rw [apply, added] at grown
      exact .inr ⟨_, _, map_ok added, .grown rfl grown rfl⟩
  | log entry =>
    obtain ⟨grown⟩ := outcome
    obtain ⟨err, refused⟩ | added := addLog_run entry c
    · exact .inl ⟨err, map_error refused⟩
    · rw [apply, added] at grown
      exact .inr ⟨_, _, map_ok added, .grown rfl grown rfl⟩
  | r1c r id =>
    obtain ⟨err, refused⟩ | ⟨b, found, inRange, small, added⟩ := addR1C_run r id c
    · exact .inl ⟨err, map_error refused⟩
    · exact .inr ⟨_, _, map_ok added, .r1c (.of_r1c found inRange small)⟩
  | gate g id =>
    obtain ⟨err, refused⟩ | ⟨b, found, wires, coeffs, shape, added⟩ := addGate_run g id c
    · exact .inl ⟨err, map_error refused⟩
    · exact .inr ⟨_, _, map_ok added, .gate shape (.of_gate found wires coeffs)⟩
  | hint h name id =>
    obtain ⟨err, refused⟩ | ⟨b, found, named, inRange, outputs, small, added⟩ :=
      addHint_run h name id c
    · exact .inl ⟨err, map_error refused⟩
    · exact .inr ⟨_, _, map_ok added,
        .hint named (.of_hint found inRange outputs small)⟩
  | levels schedule =>
    obtain ⟨err, -, refused⟩ | ⟨levels, replayed, added⟩ := setLevels_run schedule c
    · exact .inl ⟨err, map_error refused⟩
    · exact .inr ⟨_, _, map_ok added, .levels replayed⟩

/-- Applying an edit is trying it. -/
theorem stateAfter_attempt (e : Edit F) (c : Circuit F) :
    stateAfter (e.attempt.run c) = e.apply c := by
  cases e <;> exact stateAfter_map _ _ _

/-- A refused edit leaves the whole circuit as it was. -/
theorem attempt_error {e : Edit F} {c c' : Circuit F} {err : Circuit.Error}
    (refused : e.attempt.run c = .error err c') : c' = c := by
  obtain ⟨err', same⟩ | ⟨n, c'', accepted, -⟩ := attempt_run e c
  · rw [same] at refused
    exact (EStateM.Result.error.inj refused).2.symm
  · rw [accepted] at refused
    cases refused

/-- The gate `x⋅x = y`, and a hint for the last bit of `y`. -/
def hintedCircuit : Circuit .tiny :=
  [.secretInput "x", .internal, .internal, .internal, .blueprint .mul, .blueprint .genericHint,
    .blueprint .genericR1C, .gate ⟨0, 0, 1, 0, 0, 3, 1, 0, .plain⟩ 0,
    .hint ⟨hintId "bits", [[⟨1, 1⟩]], [2]⟩ "bits" 1].foldl apply (.empty .tiny .sparse)

/-- Edits that this circuit refuses, one for each operation that can fail. -/
def refusedEdits : List (Edit .tiny × Circuit.Error) :=
  [(.publicInput "p", .variableOrder .publicTooLate),
    (.secretInput "s", .variableOrder .secretTooLate),
    (.r1c ⟨[⟨1, 0⟩], [⟨1, 0⟩], [⟨1, 1⟩]⟩ 2, .circuitKindMismatch .sparse .r1c),
    (.gate ⟨0, 0, 3, 1, 0, 3, 1, 0, .plain⟩ 0, .blueprint (.shapeMismatch .mul .onlyProduct)),
    (.hint ⟨hintId "bits", [[⟨1, 1⟩]], [3, 3]⟩ "bits" 1, .wireAlreadyDefined 3),
    (.describe 1 ⟨"", "", [], []⟩, .constraintOutOfRange 1 1),
    (.log ⟨"", "", [[⟨1, 4⟩]], []⟩, .wireOutOfRange 4 4),
    (.levels [[1]], .invalidLevels (.missingInstruction 0))]

theorem refusedEdits_unchanged : refusedEdits.map (fun r => r.1.attempt.run hintedCircuit)
    = refusedEdits.map fun r => .error r.2 hintedCircuit := by
  have refused : ∀ r ∈ refusedEdits, failure? (r.1.attempt.run hintedCircuit) = some r.2 := by
    decide +kernel
  refine List.map_congr_left fun r mem => ?_
  obtain ⟨c', ran⟩ := failure?_eq_some.1 (refused r mem)
  have same : c' = hintedCircuit := attempt_error ran
  rw [ran, same]

end Edit

end CircuitWitness
