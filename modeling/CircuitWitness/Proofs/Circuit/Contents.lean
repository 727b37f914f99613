import CircuitWitness.Proofs.Circuit.Atomicity
import CircuitWitness.Proofs.Circuit.Listing

/-!
# What a circuit holds

A circuit that is built from an empty one holds what its accepted edits asked for, and nothing of
the refused ones. The ranges of its instructions follow one another and make up the buffer. Its
constraints are those that were added, in order, a gate as its blueprint decodes it, and the number
that was given for a constraint is its place among them. The names of hints are those of the hints
that were added, by their ids.

Places in the buffer are words of 64 bits, so the buffer must not be longer. Numbers of constraints
are words of 32 bits, and start again at zero after the last one.

Results:
* `Tiled.added`: an added instruction has the next range.
* `Recorded.step`: what one more accepted edit leaves.
* `recorded_edits`: what a run of edits leaves, accepted or refused.
* `contents`: the ranges, numbers, names and constraints of a circuit after any edits.
-/

namespace CircuitWitness

variable {F : PrimeField}

/-! ## The history of accepted edits -/

/-- The edits among a list that a circuit accepts, one after the other, with what they give. -/
def Edit.history : Circuit F → List (Edit F) → List (Edit F × Option UInt32)
  | _, [] => []
  | c, e :: rest =>
    match e.attempt.run c with
    | .ok n c' => (e, n) :: history c' rest
    | .error _ c' => history c' rest

/-- The name of the hint that an edit asks for. -/
def Edit.hintName? : Edit F → Option String
  | .hint _ name _ => some name
  | _ => none

namespace Circuit

variable {c c' : Circuit F}

/-- A gate as the blueprint with an id decodes it from its words. -/
def reread (c : Circuit F) (id : BlueprintId) (g : Gate) : Except Error Gate := do
  let b ← c.blueprintAt id
  match (b.compressGate g).run [] with
  | .ok _ words => (b.gateOf words).mapError Error.blueprint
  | .error e _ => throw (.blueprint e)

/-- The constraint that an edit asks for: a gate as its blueprint decodes it. -/
def constraintOf? (c : Circuit F) : Edit F → Option (Except Error Operation)
  | .r1c r _ => some (.ok (.r1c r))
  | .gate g id => some (Operation.gate <$> c.reread id g)
  | _ => none

/-- The constraints that the edits of a history asked for, with the numbers given for them. -/
def constraintsOf (c : Circuit F) (history : List (Edit F × Option UInt32)) :
    List (Except Error Operation × Option UInt32) :=
  history.filterMap fun a => (c.constraintOf? a.1).map fun x => (x, a.2)

/-- The names of the hints that the edits of a history asked for. -/
def hintsOf (history : List (Edit F × Option UInt32)) : List String :=
  history.filterMap fun a => a.1.hintName?

theorem constraintsOf_append (c : Circuit F) (history : List (Edit F × Option UInt32)) (e : Edit F)
    (n : Option UInt32) : c.constraintsOf (history ++ [(e, n)])
      = c.constraintsOf history ++ ((c.constraintOf? e).map fun x => (x, n)).toList := by
  rw [constraintsOf, List.filterMap_append]
  cases asked : c.constraintOf? e <;> simp [constraintsOf, asked]

theorem hintsOf_append (history : List (Edit F × Option UInt32)) (e : Edit F) (n : Option UInt32) :
    hintsOf (history ++ [(e, n)]) = hintsOf history ++ e.hintName?.toList := by
  rw [hintsOf, List.filterMap_append]
  cases named : e.hintName? <;> simp [hintsOf, named]

theorem reread_ok {id : BlueprintId} {g : Gate} {b : Blueprint} (found : c.blueprintAt id = .ok b)
    (kind : b.kind = .gate) (shape : g.shapeFault? b = none) :
    c.reread id g = .ok (b.recoded g) := by
  have packed : (b.compressGate g).run [] = .ok () (g.words b) :=
    Blueprint.compressGate_ok.2 ⟨kind, shape, rfl⟩
  simp only [reread, found, packed, bind, Except.bind, Blueprint.gateOf_words kind]
  rfl

/-- A gate is decoded alike when there are more blueprints. -/
theorem reread_of_prefix {id : BlueprintId} {g g' : Gate} (h : c.reread id g = .ok g')
    (blueprints : c.blueprints <+: c'.blueprints) : c'.reread id g = .ok g' := by
  obtain ⟨b, found, decoded⟩ := except_bind_ok.1 h
  exact except_bind_ok.2 ⟨b, blueprintAt_of_prefix blueprints found, decoded⟩

theorem constraintOf?_of_prefix {e : Edit F} (blueprints : c.blueprints <+: c'.blueprints)
    (decoded : ∀ x, c.constraintOf? e = some x → ∃ op, x = .ok op) :
    c'.constraintOf? e = c.constraintOf? e := by
  cases e with
  | gate g id =>
    obtain ⟨op, asked⟩ := decoded _ rfl
    cases read : c.reread id g with
    | error err =>
      rw [read] at asked
      cases asked
    | ok g' => simp only [constraintOf?, read, reread_of_prefix read blueprints]
  | _ => rfl

variable {history : List (Edit F × Option UInt32)}

/-- Constraints that were decoded are decoded alike when there are more blueprints. -/
theorem constraintsOf_of_prefix (blueprints : c.blueprints <+: c'.blueprints)
    (decoded : ∀ x ∈ c.constraintsOf history, ∃ op, x.1 = .ok op) :
    c'.constraintsOf history = c.constraintsOf history := by
  refine List.filterMap_congr fun a ha => ?_
  have same : c'.constraintOf? a.1 = c.constraintOf? a.1 := by
    refine constraintOf?_of_prefix blueprints fun x asked => ?_
    exact decoded (x, a.2) (List.mem_filterMap.2 ⟨a, ha, by rw [asked]; rfl⟩)
  rw [same]

/-! ## Ranges of words -/

/-- The ranges of the instructions follow one another, from the first word of the buffer to its
    last, and none of them is empty. -/
structure Tiled (c : Circuit F) (ranges : List CallData) : Prop where
  words : c.instructions.map c.callDataOf = ranges.map .ok
  starts : ∀ (p : ℕ) (i : Instruction), c.instructions[p]? = some i →
    i.start.toNat = (ranges.take p).flatten.length
  whole : ranges.flatten = c.callData
  nonempty : ∀ words ∈ ranges, words ≠ []

variable {ranges : List CallData}

theorem Tiled.map_of_prefix (h : c.Tiled ranges) (blueprints : c.blueprints <+: c'.blueprints)
    (callData : c.callData <+: c'.callData) :
    c.instructions.map c'.callDataOf = ranges.map .ok :=
  map_ok_of_map_ok h.words fun _ _ read => callDataOf_of_prefix read blueprints callData

theorem Tiled.length (h : c.Tiled ranges) : ranges.length = c.instructions.length := by
  have length := congrArg List.length h.words
  rw [List.length_map, List.length_map] at length
  exact length.symm

theorem Tiled.grown (h : c.Tiled ranges) (grown : Grown c c') : c'.Tiled ranges := by
  constructor
  · rw [grown.instructions]
    exact h.map_of_prefix grown.blueprints (by rw [grown.callData])
  · rw [grown.instructions]
    exact h.starts
  · rw [grown.callData]
    exact h.whole
  · exact h.nonempty

/-- An added instruction has the words that follow those of the others. -/
theorem Tiled.added (h : c.Tiled ranges) {op : Operation} {noted : List WireId} {id : BlueprintId}
    {b : Blueprint} {words : CallData} (addition : c.Addition op noted id b words)
    (small : c.callData.length < 2 ^ 64) (names : OrderedMap HintId String) :
    (c.added op noted id b words names).Tiled (ranges ++ [words]) := by
  have before : c.instructions.map (c.added op noted id b words names).callDataOf
      = ranges.map .ok := h.map_of_prefix (List.prefix_refl _) (List.prefix_append _ _)
  have last : (c.added op noted id b words names).callDataOf
      ⟨id, UInt32.ofNat c.constraintCount, UInt64.ofNat c.callData.length⟩ = .ok words :=
    callDataOf_appended addition.blueprint rfl small addition.length
  have start : (UInt64.ofNat c.callData.length).toNat = c.callData.length := by
    rw [UInt64.toNat_ofNat']
    exact Nat.mod_eq_of_lt small
  constructor
  · show (c.instructions ++ [_]).map (c.added op noted id b words names).callDataOf = _
    rw [List.map_append, List.map_append, before, List.map_singleton, List.map_singleton, last]
  · intro p i found
    have found : (c.instructions ++ [⟨id, UInt32.ofNat c.constraintCount,
        UInt64.ofNat c.callData.length⟩])[p]? = some i := found
    by_cases old : p < c.instructions.length
    · rw [List.getElem?_append_left old] at found
      rw [List.take_append_of_le_length (by rw [h.length]; omega)]
      exact h.starts p i found
    · -- The new instruction starts where the buffer ended.
      rw [List.getElem?_append_right (by omega), List.getElem?_singleton] at found
      split at found
      · next place =>
        obtain rfl := Option.some.inj found
        have all : p = ranges.length := by
          rw [h.length]
          omega
        rw [all, List.take_left, h.whole]
        exact start
      · cases found
  · rw [List.flatten_concat, h.whole]
    rfl
  · intro r mem
    rcases List.mem_append.1 mem with mem | mem
    · exact h.nonempty r mem
    · obtain rfl := List.mem_singleton.1 mem
      obtain ⟨-, positive, -⟩ := Blueprint.callDataLength_eq_ok.1 addition.length
      exact fun empty => positive (by rw [empty]; rfl)

/-! ## Names of hints -/

/-- A map has the given names, each by the id of the hint, and no others. -/
def NamesOf (m : OrderedMap HintId String) (names : List String) : Prop :=
  ∀ id name, m.find? id = some name ↔ id = hintId name ∧ name ∈ names

theorem checkHintName_ok {id : HintId} {name : String} (h : c.checkHintName id name = .ok ()) :
    id = hintId name ∧ ∀ existing, c.hintNames.find? (hintId name) = some existing →
      existing = name := by
  unfold checkHintName at h
  dsimp only at h
  split at h
  · cases h
  · next same =>
    refine ⟨not_not.1 same, fun existing found => ?_⟩
    rw [found] at h
    dsimp only at h
    split at h
    · cases h
    · next same' => exact not_not.1 same'

/-- The name of an accepted hint joins the others: no other one has its id. -/
theorem NamesOf.insert {names : List String} (h : NamesOf c.hintNames names) {id : HintId}
    {name : String} (named : c.checkHintName id name = .ok ()) :
    NamesOf (c.hintNames.insert (hintId name) name) (names ++ [name]) := by
  obtain ⟨-, unique⟩ := checkHintName_ok named
  intro key name'
  rw [OrderedMap.find?_insert, List.mem_append, List.mem_singleton]
  split
  · next same =>
    subst same
    constructor
    · intro found
      obtain rfl := Option.some.inj found
      exact ⟨rfl, .inr rfl⟩
    · rintro ⟨same, old | rfl⟩
      · have found : c.hintNames.find? (hintId name) = some name' := (h _ _).2 ⟨same, old⟩
        rw [unique name' found]
      · rfl
  · next other =>
    rw [h key name']
    constructor
    · rintro ⟨same, old⟩
      exact ⟨same, .inl old⟩
    · rintro ⟨same, old | rfl⟩
      · exact ⟨same, old⟩
      · exact absurd same other

/-! ## What accepted edits leave -/

/-- What a circuit holds after the edits of a history: a range for each instruction, the constraints
    that were asked for under the numbers that were given for them, and the names of the hints. -/
structure Recorded (c : Circuit F) (history : List (Edit F × Option UInt32)) : Prop where
  ranges : ∃ ranges, c.Tiled ranges
  constraints : ∃ ops, c.HasOperations ops ∧ c.constraintsOf history =
    (ops.filter Operation.isConstraint).mapIdx fun k op => (.ok op, some (UInt32.ofNat k))
  names : NamesOf c.hintNames (hintsOf history)

theorem Recorded.empty (kind : CircuitKind) : Recorded (.empty F kind) [] where
  ranges := ⟨[], rfl, by simp [Circuit.empty], rfl, by simp⟩
  constraints := ⟨[], ⟨rfl, by simp⟩, rfl⟩
  names := by
    intro id name
    simp [hintsOf, Circuit.empty]

/-- Constraints are decoded alike when there are more blueprints. -/
theorem Recorded.constraintsOf_eq (h : c.Recorded history)
    (blueprints : c.blueprints <+: c'.blueprints) :
    c'.constraintsOf history = c.constraintsOf history := by
  refine constraintsOf_of_prefix blueprints fun x mem => ?_
  obtain ⟨ops, -, listed⟩ := h.constraints
  rw [listed] at mem
  obtain ⟨k, bound, rfl⟩ := List.mem_mapIdx.1 mem
  exact ⟨_, rfl⟩

/-- An edit that adds no instruction leaves what is held. -/
theorem Recorded.grown (h : c.Recorded history) (grown : Grown c c')
    (hintNames : c'.hintNames = c.hintNames) {e : Edit F} (plain : e.addsInstruction = false)
    (n : Option UInt32) : c'.Recorded (history ++ [(e, n)]) := by
  obtain ⟨ranges, tiled⟩ := h.ranges
  obtain ⟨ops, operations, listed⟩ := h.constraints
  have asked : c'.constraintOf? e = none := by cases e <;> first | rfl | cases plain
  have named : e.hintName? = none := by cases e <;> first | rfl | cases plain
  refine ⟨⟨ranges, tiled.grown grown⟩, ⟨ops, operations.grown grown, ?_⟩, ?_⟩
  · rw [constraintsOf_append, asked, h.constraintsOf_eq grown.blueprints, listed]
    exact List.append_nil _
  · rw [hintNames, hintsOf_append, named, Option.toList_none, List.append_nil]
    exact h.names

theorem Recorded.withLevels (h : c.Recorded history) (levels : Levels) :
    Recorded { c with levels } history := by
  obtain ⟨ranges, tiled⟩ := h.ranges
  obtain ⟨ops, operations, listed⟩ := h.constraints
  exact ⟨⟨ranges, { tiled with }⟩, ⟨ops, { operations with }, listed⟩, h.names⟩

/-- The number of a new constraint is how many there are. -/
theorem newNumber_eq {b : Blueprint} (constraint : b.kind ≠ .hint) :
    c.newNumber b = UInt32.ofNat c.constraintCount := by
  rw [newNumber, constraintCount_eq, if_pos constraint, UInt32.ofNat_add]
  exact UInt32.add_sub_cancel _ 1

/-- An edit that adds an instruction adds its range, and its constraint under the next number. -/
theorem Recorded.added (h : c.Recorded history) (wf : c.WellFormed)
    (small : c.callData.length < 2 ^ 64) {op : Operation} {noted : List WireId} {id : BlueprintId}
    {b : Blueprint} {words : CallData} (addition : c.Addition op noted id b words) {e : Edit F}
    {n : Option UInt32} {names : OrderedMap HintId String}
    (asked : c.constraintOf? e = if op.isConstraint then some (.ok op) else none)
    (number : op.isConstraint → n = some (c.newNumber b))
    (named : NamesOf names (hintsOf (history ++ [(e, n)]))) :
    (c.added op noted id b words names).Recorded (history ++ [(e, n)]) := by
  obtain ⟨ranges, tiled⟩ := h.ranges
  obtain ⟨ops, operations, listed⟩ := h.constraints
  have same : (c.added op noted id b words names).constraintsOf (history ++ [(e, n)])
      = c.constraintsOf (history ++ [(e, n)]) := rfl
  have count : c.constraintCount = (ops.filter Operation.isConstraint).length := by
    rw [wf.count, countP_of_decoded operations.decoded, List.countP_eq_length_filter]
  refine ⟨⟨_, tiled.added addition small names⟩, ⟨_, operations.added addition small names, ?_⟩,
    named⟩
  rw [same, constraintsOf_append, listed, List.filter_append]
  -- A hint call is no constraint and takes no number.
  cases constraint : op.isConstraint with
  | false =>
    rw [constraint] at asked
    simp [asked, constraint]
  | true =>
    rw [constraint] at asked
    have kind : b.kind ≠ .hint := by
      rw [addition.reads.kind]
      exact Operation.isConstraint_iff_kind.1 constraint
    have given : n = some (UInt32.ofNat (ops.filter Operation.isConstraint).length) := by
      rw [number constraint, newNumber_eq kind, count]
    simp [asked, constraint, given]

/-- What one more accepted edit leaves. -/
theorem Recorded.step (h : c.Recorded history) (wf : c.WellFormed)
    (small : c.callData.length < 2 ^ 64) {e : Edit F} {n : Option UInt32}
    (accepted : e.Accepted c n c') : c'.Recorded (history ++ [(e, n)]) := by
  cases accepted with
  | grown plain grown hintNames => exact h.grown grown hintNames plain n
  | levels replayed => exact (h.withLevels _).grown (.refl _) rfl rfl none
  | r1c addition =>
    refine h.added wf small addition rfl (fun _ => rfl) ?_
    simpa [hintsOf_append, Edit.hintName?] using h.names
  | gate shape addition =>
    refine h.added wf small addition ?_ (fun _ => rfl) ?_
    · have read := reread_ok addition.blueprint addition.reads.1 shape
      simp only [constraintOf?, read, Operation.isConstraint]
      rfl
    · simpa [hintsOf_append, Edit.hintName?] using h.names
  | hint named addition =>
    refine h.added wf small addition rfl (fun constraint => by cases constraint) ?_
    simpa [hintsOf_append, Edit.hintName?] using h.names.insert named

theorem length_callData_edits (edits : List (Edit F)) (c : Circuit F) :
    c.callData.length ≤ (edits.foldl Edit.apply c).callData.length := by
  induction edits generalizing c with
  | nil => exact Nat.le_refl _
  | cons e rest ih => exact (length_callData_le e c).trans (ih (e.apply c))

theorem kind_edits (edits : List (Edit F)) (c : Circuit F) :
    (edits.foldl Edit.apply c).kind = c.kind := by
  induction edits generalizing c with
  | nil => rfl
  | cons e rest ih => exact (ih (e.apply c)).trans (Extends.of_outcome (e.apply_outcome c)).kind

/-- What a run of edits leaves, whether they are accepted or refused. -/
theorem recorded_edits (h : c.Recorded history) (reachable : c.Reachable) {edits : List (Edit F)}
    (small : (edits.foldl Edit.apply c).callData.length < 2 ^ 64) :
    (edits.foldl Edit.apply c).Recorded (history ++ Edit.history c edits) := by
  induction edits generalizing c history with
  | nil =>
    rw [Edit.history, List.append_nil]
    exact h
  | cons e rest ih =>
    have next := Reachable.edit e reachable
    have before : c.callData.length < 2 ^ 64 :=
      Nat.lt_of_le_of_lt (length_callData_edits (e :: rest) c) small
    have after := Edit.stateAfter_attempt e c
    obtain ⟨err, refused⟩ | ⟨n, c', ran, accepted⟩ := Edit.attempt_run e c
    · -- A refused edit leaves the circuit, and it is not part of the history.
      rw [refused, stateAfter_error] at after
      rw [← after] at next
      rw [List.foldl_cons, ← after] at small ⊢
      rw [Edit.history, refused]
      exact ih h next small
    · rw [ran, stateAfter_ok] at after
      rw [← after] at next
      rw [List.foldl_cons, ← after] at small ⊢
      have both := ih (h.step reachable.wellFormed before accepted) next small
      rw [List.append_assoc] at both
      rw [Edit.history, ran]
      exact both

/-! ## The whole content -/

/-- Constraints of one form are read as they were recorded. -/
theorem Recorded.read_ok (h : c.Recorded history) (wf : c.WellFormed) {α : Type}
    {read : Blueprint → CallData → Except Blueprint.Error α} {as : α → Operation}
    (reads : ∀ i x, c.operationOf i = .ok (as x) → c.ReadsAs read i x)
    (form : ∀ op : Operation, c.kind.allows op.kind → op.isConstraint → ∃ x, op = as x) :
    ∃ xs, c.readConstraints read c.instructions = .ok xs ∧
      c.constraintsOf history = xs.mapIdx fun k x => (.ok (as x), some (UInt32.ofNat k)) := by
  obtain ⟨ops, operations, listed⟩ := h.constraints
  obtain ⟨xs, forms⟩ := exists_forms fun op mem constraint =>
    form op (operations.allows wf op mem) constraint
  refine ⟨xs, readConstraints_of_decoded reads operations.decoded forms, ?_⟩
  rw [listed, forms]
  refine List.ext_getElem? fun k => ?_
  simp [Function.comp_def]

/-- Whatever edits are tried on an empty circuit: the ranges of its instructions tile its buffer in
    order, its instructions carry the number of constraints before them and their count is that of
    all constraints, and its names of hints are those of the hints that were accepted. Its list of
    constraints is that of the constraints that were accepted, in order, a gate as its blueprint
    decodes it; the number that was given for each is its place in the list. -/
theorem contents (kind : CircuitKind) (edits : List (Edit F))
    (small : (edits.foldl Edit.apply (.empty F kind)).callData.length < 2 ^ 64) :
    let c := edits.foldl Edit.apply (.empty F kind)
    let history := Edit.history (.empty F kind) edits
    (∃ ranges, c.Tiled ranges) ∧
      (∀ (p : ℕ) (i : Instruction), c.instructions[p]? = some i →
        i.constraint = UInt32.ofNat (c.constraintsBefore p)) ∧
      c.constraintCount = c.instructions.countP c.isConstraint ∧
      NamesOf c.hintNames (hintsOf history) ∧
      (kind = .r1cs → ∃ rs, c.constraints = .ok rs ∧ c.constraintsOf history =
        rs.mapIdx fun k r => (.ok (.r1c r), some (UInt32.ofNat k))) ∧
      (kind = .sparse → ∃ gs, c.gates = .ok gs ∧ c.constraintsOf history =
        gs.mapIdx fun k g => (.ok (.gate g), some (UInt32.ofNat k))) := by
  intro c history
  have recorded : c.Recorded history := recorded_edits (.empty kind) (.empty kind) small
  have wf : c.WellFormed := (Reachable.edits (.empty kind) edits).wellFormed
  have same : c.kind = kind := kind_edits edits _
  refine ⟨recorded.ranges, wf.number, wf.count, recorded.names, ?_, ?_⟩
  · rintro rfl
    refine recorded.read_ok wf (fun _ _ => readsAs_r1cOf) fun op allowed constraint => ?_
    rw [same] at allowed
    cases op with
    | r1c r => exact ⟨r, rfl⟩
    | gate g => cases allowed
    | hint call => cases constraint
  · rintro rfl
    refine recorded.read_ok wf (fun _ _ => readsAs_gateOf.2) fun op allowed constraint => ?_
    rw [same] at allowed
    cases op with
    | r1c r => cases allowed
    | gate g => exact ⟨g, rfl⟩
    | hint call => cases constraint

/-- The gates `x⋅x = y` and `z⋅z = z`, a hint for `z` as a bit of `y`, and three edits that are
    refused: a gate in a layout without its form, the hint once more, and a late input. The second
    gate has another idle wire when it is decoded. -/
def bitEdits : List (Edit .tiny) :=
  [.secretInput "x", .internal, .internal, .blueprint .mul, .blueprint .bool,
    .blueprint .genericHint, .gate ⟨0, 0, 1, 0, 0, 3, 1, 0, .plain⟩ 0,
    .gate ⟨0, 0, 2, 1, 0, 3, 1, 0, .plain⟩ 0, .hint ⟨hintId "bits", [[⟨1, 1⟩]], [2]⟩ "bits" 2,
    .hint ⟨hintId "bits", [[⟨1, 1⟩]], [2]⟩ "bits" 2, .secretInput "w",
    .gate ⟨2, 2, 0, 3, 0, 0, 1, 0, .plain⟩ 1]

theorem bitEdits_contents :
    let c := bitEdits.foldl Edit.apply (.empty .tiny .sparse)
    let history := Edit.history (.empty .tiny .sparse) bitEdits
    (∃ ranges, c.Tiled ranges) ∧ c.constraintCount = 2 ∧ NamesOf c.hintNames ["bits"] ∧
      c.constraintsOf history = [(.ok (.gate ⟨0, 0, 1, 0, 0, 3, 1, 0, .plain⟩), some 0),
        (.ok (.gate ⟨2, 2, 2, 3, 0, 0, 1, 0, .plain⟩), some 1)] := by
  intro c history
  obtain ⟨small, hints, count, read⟩ : c.callData.length < 2 ^ 64 ∧ hintsOf history = ["bits"] ∧
      c.constraintCount = 2 ∧ c.gates = .ok [⟨0, 0, 1, 0, 0, 3, 1, 0, .plain⟩,
        ⟨2, 2, 2, 3, 0, 0, 1, 0, .plain⟩] := by decide +kernel
  obtain ⟨tiled, -, -, names, -, gates⟩ := contents .sparse bitEdits small
  obtain ⟨gs, same, listed⟩ := gates rfl
  obtain rfl := Except.ok.inj (same.symm.trans read)
  refine ⟨tiled, count, ?_, listed⟩
  rw [← hints]
  exact names

end Circuit

end CircuitWitness
