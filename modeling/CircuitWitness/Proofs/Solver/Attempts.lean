import CircuitWitness.Proofs.Solver.Runs

/-!
# Beginning and end of an attempt

An attempt begins with the inputs in the first places and nothing else known. It ends with a
solution only if every place is filled.

Results:
* `start_eq_ok`, `start_eq_error`: when an attempt begins, and why it may not.
* `start_ok`, `start_begun`: what is known at the start.
* `assignment_ok`, `completeRows_ok`: the assignment and the rows of a solution are those of the
  last state.
-/

namespace CircuitWitness.Solver

variable {F : PrimeField} {c : Circuit F} {s s' : State F}

/-! ## The start -/

section Start

variable {hints : HintRegistry} {witness : List F.Elem}

/-- The first wires hold the given values. -/
def StartsWith (s : State F) (xs : List F.Elem) : Prop :=
  ∀ (i : ℕ) (x : F.Elem), xs[i]? = some x → s.values[i]? = some (some x)

/-- The values of the inputs, the constant one among them. -/
def inputsOf (c : Circuit F) (witness : List F.Elem) : List F.Elem :=
  match c.kind with
  | .r1cs => 1 :: witness
  | .sparse => witness

/-- In a circuit of rank-one constraints one is an input, so there are as many values as inputs. -/
theorem length_inputsOf (size : witness.length = c.witnessLength)
    (positive : c.kind = .r1cs → 0 < c.inputCount) :
    (inputsOf c witness).length = c.inputCount := by
  unfold Circuit.witnessLength at size
  unfold inputsOf
  cases kind : c.kind with
  | r1cs =>
    have := positive kind
    rw [kind] at size
    simp only [List.length_cons] at size ⊢
    omega
  | sparse =>
    rw [kind] at size
    exact size

theorem inputCount_le_length (size : witness.length = c.witnessLength) :
    c.inputCount ≤ (inputsOf c witness).length := by
  by_cases positive : 0 < c.inputCount
  · rw [length_inputsOf size fun _ => positive]
  · omega

theorem StartsWith.prefix_of_extends {xs w : List F.Elem} (h : StartsWith s xs)
    (extension : Extends w s) : xs <+: w := by
  rw [List.prefix_iff_getElem?]
  intro i hi
  exact extension i _ (h i _ (List.getElem?_eq_getElem hi))

theorem StartsWith.of_fills {W K : Set ℕ} {xs : List F.Elem} (h : StartsWith s xs)
    (fills : Fills W K s s') : StartsWith s' xs :=
  fun i x valueAt => fills.values.keeps (h i x valueAt)

/-- One wire more is set, the first after those that were set before. -/
theorem StartsWith.snoc {before : List F.Elem} {w : WireId} (h : StartsWith s before)
    (empty : s.values[w.toNat]? = some none) (place : w.toNat = before.length) (x : F.Elem) :
    StartsWith (s.withValue w x) (before ++ [x]) := by
  have later := fills_withValue (W := .univ) (K := ∅) empty (Set.mem_univ _) x
  intro i y hy
  by_cases old : i < before.length
  · rw [List.getElem?_append_left old] at hy
    exact later.values.keeps (h i y hy)
  · rw [List.getElem?_append_right (by omega), List.getElem?_singleton] at hy
    split at hy
    · obtain rfl := Option.some.inj hy
      rw [show i = w.toNat by omega]
      exact withValue_value empty x
    · cases hy

theorem Writes.assignFrom {W K : Set ℕ} (place : ℕ) {xs : List F.Elem}
    (hW : ∀ i < place + xs.length, i ∈ W) : Writes W K (assignFrom place xs) := by
  induction xs generalizing place with
  | nil => exact .pure _
  | cons x xs ih =>
    have low : (UInt32.ofNat place).toNat ≤ place := by
      rw [UInt32.toNat_ofNat']
      exact Nat.mod_le _ _
    refine (Writes.assign (hW _ (by rw [List.length_cons]; omega)) x).bind fun _ => ?_
    exact ih (place + 1) fun i hi => hW i (by rw [List.length_cons]; omega)

/-- Setting wires from a place on extends the values before it. A place that wraps around is one
    that was set before, so it cannot be set. -/
theorem assignFrom_ok {place : ℕ} {xs before : List F.Elem} {u : Unit}
    (known : StartsWith s before) (len : before.length = place)
    (h : (assignFrom place xs).run s = .ok u s') : StartsWith s' (before ++ xs) := by
  induction xs generalizing place before s with
  | nil =>
    obtain ⟨-, rfl⟩ := pure_ok.1 h
    rwa [List.append_nil]
  | cons x xs ih =>
    simp only [assignFrom, bind_ok, assign_ok] at h
    obtain ⟨_, _, ⟨empty, rfl⟩, rest⟩ := h
    have inPlace : (UInt32.ofNat place).toNat = before.length := by
      rw [UInt32.toNat_ofNat'] at empty ⊢
      by_contra wrapped
      have low : place % 2 ^ 32 < before.length := by
        have := Nat.mod_le place (2 ^ 32)
        omega
      rw [known _ _ (List.getElem?_eq_getElem low)] at empty
      simp at empty
    rw [show before ++ x :: xs = (before ++ [x]) ++ xs by simp]
    exact ih (known.snoc empty inPlace x) (by simp [len]) rest

/-- Setting the inputs is setting the first wires, whatever the kind of the circuit. -/
theorem assignInputs_eq (c : Circuit F) (witness : List F.Elem) :
    assignInputs c witness = assignFrom 0 (inputsOf c witness) := by
  unfold assignInputs inputsOf
  cases c.kind with
  | r1cs => rfl
  | sparse => rfl

/-- An attempt begins if no hint is missing, the witness has the right size and the inputs can be
    set. -/
theorem start_eq_ok : start c hints witness = .ok s ↔
    missingHints c hints = [] ∧ witness.length = c.witnessLength ∧
      (assignFrom 0 (inputsOf c witness)).run (State.blank F c.wireCount (rowCount c))
        = .ok () s := by
  rw [← assignInputs_eq]
  simp only [start]
  split
  · next missing => simp [missing]
  · next registered =>
    rw [not_not] at registered
    split
    · next size => simp [size]
    · next size =>
      rw [not_not] at size
      cases (assignInputs c witness).run (State.blank F c.wireCount (rowCount c)) with
      | ok u s' => simp [registered, size]
      | error e s' => simp

/-- An attempt does not begin if a hint is missing, the witness has another size or the inputs
    cannot be set. -/
theorem start_eq_error {e : Error F} (failed : start c hints witness = .error e) :
    e = .missingHints (missingHints c hints) ∨
      e = .witnessSize c.witnessLength witness.length ∨
      witness.length = c.witnessLength ∧
        ∃ s', (assignFrom 0 (inputsOf c witness)).run (State.blank F c.wireCount (rowCount c))
          = .error e s' := by
  rw [← assignInputs_eq]
  simp only [start] at failed
  split at failed
  · exact .inl (Except.error.inj failed).symm
  · split at failed
    · exact .inr (.inl (Except.error.inj failed).symm)
    · next size =>
      rw [not_not] at size
      split at failed
      · cases failed
      · next e' s' run =>
        obtain rfl := Except.error.inj failed
        exact .inr (.inr ⟨size, s', run⟩)

/-- At the start the inputs are known and nothing else. -/
theorem start_ok (h : start c hints witness = .ok s) :
    witness.length = c.witnessLength ∧ StartsWith s (inputsOf c witness) ∧
      Fills { i | i < (inputsOf c witness).length } ∅
        (State.blank F c.wireCount (rowCount c)) s := by
  obtain ⟨-, size, run⟩ := start_eq_ok.1 h
  have nothingKnown : StartsWith (State.blank F c.wireCount (rowCount c)) [] := fun i x hx => by
    simp at hx
  have writes : Writes { i | i < (inputsOf c witness).length } ∅
      (assignFrom 0 (inputsOf c witness)) := .assignFrom 0 fun i hi => by simpa using hi
  exact ⟨size, assignFrom_ok nothingKnown rfl run, writes.ok run⟩

theorem counted_blank (F : PrimeField) (wireCount rowCount : ℕ) :
    (State.blank F wireCount rowCount).Counted := by
  simp [State.Counted, State.blank, List.countP_replicate]

/-- All that is solved after a blank state was filled. -/
theorem mem_of_blank {W K : Set ℕ} {wireCount rowCount i : ℕ} {x : F.Elem}
    (h : Fills W K (State.blank F wireCount rowCount) s)
    (filled : s.values[i]? = some (some x)) : i ∈ W := by
  obtain same | ⟨mem, -, -⟩ := h.values.2 i
  · rw [filled, State.blank, List.getElem?_replicate] at same
    split at same <;> cases same
  · exact mem

/-- At the start the rows of all constraints are empty. -/
theorem row_of_start (kind : c.kind = .r1cs) (h : start c hints witness = .ok s) {k : ℕ}
    (hk : k < c.constraintCount) : s.rows[k]? = some none := by
  obtain ⟨-, -, fills⟩ := start_ok h
  rw [fills.rows.outside (Set.notMem_empty _), State.blank, List.getElem?_replicate_of_lt]
  rwa [rowCount, kind]

/-- A state with a place for each wire, in which the inputs are solved. -/
structure Begun (c : Circuit F) (s : State F) : Prop where
  size : s.values.length = c.wireCount
  inputs : ∀ x : WireId, x.toNat < c.inputCount → s.Solved x
  one : c.kind = .r1cs → s.Solved oneWire
  counted : s.Counted

theorem start_begun (h : start c hints witness = .ok s) : Begun c s := by
  obtain ⟨size, known, fills⟩ := start_ok h
  have solved {x : WireId} (hx : x.toNat < (inputsOf c witness).length) : s.Solved x :=
    ⟨_, known _ _ (List.getElem?_eq_getElem hx)⟩
  refine ⟨?_, fun x hx => solved (Nat.lt_of_lt_of_le hx (inputCount_le_length size)),
    fun kind => solved (by simp [inputsOf, kind, oneWire]), fills.counted (counted_blank ..)⟩
  rw [fills.values.1, State.blank, List.length_replicate]

end Start

/-! ## The end -/

theorem complete?_eq_some {α : Type} {l : List (Option α)} {xs : List α} :
    complete? l = some xs ↔ l = xs.map some := by
  induction l generalizing xs with
  | nil => cases xs <;> simp [complete?]
  | cons x l ih =>
    cases x with
    | none => cases xs <;> simp [complete?]
    | some x =>
      cases xs with
      | nil => simp [complete?]
      | cons y xs => simp [complete?, Option.map_eq_some_iff, ih, and_comm]

theorem assignment_ok {w : List F.Elem} (h : assignment s = .ok w) : s.values = w.map some := by
  unfold assignment at h
  split at h
  · next xs complete =>
    split at h
    · obtain rfl := Except.ok.inj h
      exact complete?_eq_some.1 complete
    · cases h
  · cases h

/-- A state without gaps gives the assignment of its values. -/
theorem assignment_of_values {w : List F.Elem} (counted : s.Counted)
    (values : s.values = w.map some) : assignment s = .ok w := by
  have count : s.solvedCount = s.values.length := by
    rw [counted, values]
    simp [List.countP_map]
  simp only [assignment, complete?_eq_some.2 values, count, if_true]

theorem completeRows_ok {number : ℕ} {l : List (Option (Row F))} {rows : List (Row F)}
    (h : completeRows number l = .ok rows) : l = rows.map some := by
  induction l generalizing number rows with
  | nil =>
    obtain rfl := Except.ok.inj h
    rfl
  | cons x l ih =>
    cases x with
    | none => cases h
    | some row =>
      simp only [completeRows, bind, Except.bind] at h
      split at h
      · cases h
      · next others rest =>
        obtain rfl := Except.ok.inj h
        rw [ih rest, List.map_cons]

theorem extends_of_values {w : List F.Elem} (h : s.values = w.map some) : Extends w s := by
  intro i x hx
  rw [h, List.getElem?_map] at hx
  simpa using hx

end CircuitWitness.Solver
