import CircuitWitness.Proofs.Circuit.Evaluation
import CircuitWitness.Proofs.Stateful
import Mathlib.Data.Set.Subsingleton

/-!
# What a run does to the state

Places for wires and rows are filled, never emptied or changed, and the number of solved wires is
kept. This holds of a run that fails as well. A run that ends well tells of each of its reads what
it found.

Results:
* `Fills.trans`: fillings compose.
* `Writes.bind`, `Writes.foldlM`: a program fills no other places than its parts.
* `WritesOne.bind_of_ok`: a program that reads wires, and then fills one of them.
* `isSolved_ok`, `value_ok`, `assign_ok`, `coeff_ok`, `record_ok`: what a success means.
* `termValue_ok`: the value of a term is that under every assignment that extends the state.
-/

namespace CircuitWitness.Solver

variable {F : PrimeField} {α β : Type}

/-! ## Filling places -/

/-- Some places of a list are filled: those outside of `P` are as they were, and those that are
    not were empty. -/
def FillsIn (P : Set ℕ) (l l' : List (Option α)) : Prop :=
  l'.length = l.length ∧
    ∀ i, l'[i]? = l[i]? ∨ i ∈ P ∧ l[i]? = some none ∧ ∃ x, l'[i]? = some (some x)

theorem FillsIn.refl (P : Set ℕ) (l : List (Option α)) : FillsIn P l l :=
  ⟨rfl, fun _ => .inl rfl⟩

theorem FillsIn.keeps {P : Set ℕ} {l l' : List (Option α)} (h : FillsIn P l l') {i : ℕ} {x : α}
    (filled : l[i]? = some (some x)) : l'[i]? = some (some x) := by
  obtain same | ⟨-, empty, -⟩ := h.2 i
  · rw [same, filled]
  · rw [filled] at empty
    simp at empty

theorem FillsIn.outside {P : Set ℕ} {l l' : List (Option α)} (h : FillsIn P l l') {i : ℕ}
    (hi : i ∉ P) : l'[i]? = l[i]? := by
  obtain same | ⟨mem, -, -⟩ := h.2 i
  · exact same
  · exact absurd mem hi

theorem FillsIn.trans {P : Set ℕ} {l l' l'' : List (Option α)} (h : FillsIn P l l')
    (h' : FillsIn P l' l'') : FillsIn P l l'' := by
  refine ⟨h'.1.trans h.1, fun i => ?_⟩
  obtain same | ⟨mem, empty, x, filled⟩ := h.2 i
  · rw [← same]
    exact h'.2 i
  · exact .inr ⟨mem, empty, x, h'.keeps filled⟩

theorem FillsIn.mono {P Q : Set ℕ} {l l' : List (Option α)} (h : FillsIn P l l') (sub : P ⊆ Q) :
    FillsIn Q l l' :=
  ⟨h.1, fun i => (h.2 i).imp_right fun ⟨mem, rest⟩ => ⟨sub mem, rest⟩⟩

theorem FillsIn.restrict {P Q : Set ℕ} {l l' : List (Option α)} (h : FillsIn P l l')
    (sub : ∀ i ∈ P, l[i]? = some none → i ∈ Q) : FillsIn Q l l' :=
  ⟨h.1, fun i => (h.2 i).imp_right fun ⟨mem, empty, filled⟩ => ⟨sub i mem empty, empty, filled⟩⟩

theorem FillsIn.set {P : Set ℕ} {l : List (Option α)} {i : ℕ} (empty : l[i]? = some none)
    (hi : i ∈ P) (x : α) : FillsIn P l (l.set i (some x)) := by
  obtain ⟨bound, -⟩ := List.getElem?_eq_some_iff.1 empty
  refine ⟨List.length_set, fun j => ?_⟩
  by_cases hj : i = j
  · subst hj
    exact .inr ⟨hi, empty, x, by simp [bound]⟩
  · exact .inl (by rw [List.getElem?_set_ne hj])

/-! ## States -/

/-- The number of solved wires is the number that the state notes. -/
def State.Counted (s : State F) : Prop := s.solvedCount = s.values.countP Option.isSome

/-- A state that follows on another: wires in `W` and rows in `K` may have been filled. -/
structure Fills (W K : Set ℕ) (s s' : State F) : Prop where
  values : FillsIn W s.values s'.values
  rows : FillsIn K s.rows s'.rows
  counted : s.Counted → s'.Counted

variable {W K : Set ℕ} {s s' s'' : State F}

theorem Fills.refl (W K : Set ℕ) (s : State F) : Fills W K s s :=
  ⟨.refl W _, .refl K _, id⟩

theorem Fills.trans (h : Fills W K s s') (h' : Fills W K s' s'') : Fills W K s s'' :=
  ⟨h.values.trans h'.values, h.rows.trans h'.rows, h'.counted ∘ h.counted⟩

theorem Fills.mono {W' K' : Set ℕ} (h : Fills W K s s') (hW : W ⊆ W') (hK : K ⊆ K') :
    Fills W' K' s s' :=
  ⟨h.values.mono hW, h.rows.mono hK, h.counted⟩

/-- An assignment that gives every solved wire its value. -/
def Extends (w : List F.Elem) (s : State F) : Prop :=
  ∀ (i : ℕ) (x : F.Elem), s.values[i]? = some (some x) → w[i]? = some x

theorem Extends.of_fills {w : List F.Elem} (h : Fills W K s s') (hw : Extends w s') :
    Extends w s :=
  fun i x solved => hw i x (h.values.keeps solved)

/-- Some assignment extends a state. -/
theorem extends_filled (s : State F) : Extends (s.values.map fun x => x.getD 0) s := by
  intro i x solved
  rw [List.getElem?_map, solved]
  rfl

/-- The places of some wires. -/
def places (l : List WireId) : Set ℕ := { i | ∃ x ∈ l, x.toNat = i }

theorem mem_places {l : List WireId} {x : WireId} : x.toNat ∈ places l ↔ x ∈ l := by
  constructor
  · rintro ⟨y, hy, same⟩
    rwa [← UInt32.toNat_inj.1 same]
  · intro hx
    exact ⟨x, hx, rfl⟩

/-- A wire that has a value. -/
def State.Solved (s : State F) (w : WireId) : Prop := ∃ x, s.values[w.toNat]? = some (some x)

theorem State.Solved.of_fills {w : WireId} (h : Fills W K s s') (hw : s.Solved w) : s'.Solved w :=
  hw.imp fun _ => h.values.keeps

theorem State.Solved.lt_length {w : WireId} (h : s.Solved w) : w.toNat < s.values.length := by
  obtain ⟨x, valueAt⟩ := h
  exact (List.getElem?_eq_some_iff.1 valueAt).1

theorem State.Solved.ne_unsolved {w : WireId} (h : s.Solved w) :
    s.values[w.toNat]? ≠ some none := by
  obtain ⟨x, valueAt⟩ := h
  rw [valueAt]
  simp

/-- A wire that exists has a value or a place for one. -/
theorem State.solved_or_unsolved {w : WireId} (range : w.toNat < s.values.length) :
    s.Solved w ∨ s.values[w.toNat]? = some none := by
  have place := List.getElem?_eq_getElem range
  cases valueAt : s.values[w.toNat] with
  | none => exact .inr (by rw [place, valueAt])
  | some x => exact .inl ⟨x, by rw [place, valueAt]⟩

/-! ## Programs -/

/-- A program that fills wires in `W` and rows in `K` only, even if it fails. -/
def Writes (W K : Set ℕ) (x : Solve F α) : Prop := ∀ s, Fills W K s (stateAfter (x.run s))

theorem Writes.ok {x : Solve F α} (h : Writes W K x) {a : α} (run : x.run s = .ok a s') :
    Fills W K s s' := by
  simpa [run] using h s

theorem Writes.error {x : Solve F α} (h : Writes W K x) {e : Error F}
    (run : x.run s = .error e s') : Fills W K s s' := by
  simpa [run] using h s

theorem Writes.mono {W' K' : Set ℕ} {x : Solve F α} (h : Writes W K x) (hW : W ⊆ W')
    (hK : K ⊆ K') : Writes W' K' x :=
  fun s => (h s).mono hW hK

theorem Writes.pure (a : α) : Writes (F := F) W K (pure a) := fun s => .refl W K s

theorem Writes.bind {x : Solve F α} {f : α → Solve F β} (hx : Writes W K x)
    (hf : ∀ a, Writes W K (f a)) : Writes W K (x >>= f) := by
  intro s
  rw [EStateM.run_bind]
  cases h : x.run s with
  | ok a s₁ => exact (hx.ok h).trans (hf a s₁)
  | error e s₁ => exact hx.error h

theorem Writes.foldlM {f : β → α → Solve F β} (hf : ∀ b a, Writes W K (f b a)) (l : List α)
    (b : β) : Writes W K (l.foldlM f b) := by
  induction l generalizing b with
  | nil => exact .pure b
  | cons a l ih =>
    rw [List.foldlM_cons]
    exact (hf b a).bind ih

theorem Writes.fail (e : FatalError) : Writes W K (fail e : Solve F α) := fun s => .refl W K s

theorem Writes.unsatisfied (c : Circuit F) (k : UInt32) (r : Relation F) :
    Writes W K (unsatisfied c k r : Solve F α) := fun s => .refl W K s

/-- A program that fills one wire in `W` at most, and rows in `K` only, even if it fails. Which wire
    that is may depend on the state. -/
def WritesOne (W K : Set ℕ) (x : Solve F α) : Prop :=
  ∀ s, ∃ V ⊆ W, V.Subsingleton ∧ Fills V K s (stateAfter (x.run s))

theorem WritesOne.writes {x : Solve F α} (h : WritesOne W K x) : Writes W K x := by
  intro s
  obtain ⟨V, sub, -, fills⟩ := h s
  exact fills.mono sub subset_rfl

theorem WritesOne.none {x : Solve F α} (h : Writes ∅ K x) : WritesOne W K x :=
  fun s => ⟨∅, Set.empty_subset W, Set.subsingleton_empty, h s⟩

theorem WritesOne.single {x : Solve F α} {i : ℕ} (h : Writes { i } K x) (hi : i ∈ W) :
    WritesOne W K x :=
  fun s => ⟨{ i }, Set.singleton_subset_iff.2 hi, Set.subsingleton_singleton, h s⟩

/-- What comes before may only read wires. -/
theorem WritesOne.bind_of_ok {x : Solve F α} {f : α → Solve F β} (hx : Writes ∅ K x)
    (hf : ∀ a s s', x.run s = .ok a s' → WritesOne W K (f a)) : WritesOne W K (x >>= f) := by
  intro s
  rw [EStateM.run_bind]
  cases h : x.run s with
  | ok a s₁ =>
    obtain ⟨V, sub, one, fills⟩ := hf a s s₁ h s₁
    exact ⟨V, sub, one, ((hx.ok h).mono (Set.empty_subset V) subset_rfl).trans fills⟩
  | error e s₁ => exact ⟨∅, Set.empty_subset W, Set.subsingleton_empty, hx.error h⟩

/-! ## Reads and writes of the state -/

/-- Nothing after a fault is run. -/
theorem fail_bind (e : FatalError) (f : α → Solve F β) :
    (Solver.fail e : Solve F α) >>= f = Solver.fail e := rfl

@[simp] theorem run_fail (e : FatalError) (s : State F) :
    (fail e : Solve F α).run s = .error (.fatal e) s := rfl

theorem run_isSolved (w : WireId) (s : State F) :
    (isSolved w).run s =
      match s.values[w.toNat]? with
      | some x => .ok x.isSome s
      | none => .error (.fatal (.wireOutOfRange w s.values.length)) s := by
  simp only [isSolved, EStateM.run_bind, EStateM.run_get]
  cases s.values[w.toNat]? <;> rfl

theorem run_value (w : WireId) (s : State F) :
    (value w).run s =
      match s.values[w.toNat]? with
      | some (some x) => .ok x s
      | some none => .error (.fatal (.unsolvedWire w)) s
      | none => .error (.fatal (.wireOutOfRange w s.values.length)) s := by
  simp only [value, EStateM.run_bind, EStateM.run_get]
  rcases s.values[w.toNat]? with _ | _ | x <;> rfl

/-- The state after a wire was set. -/
def State.withValue (s : State F) (w : WireId) (x : F.Elem) : State F :=
  { s with values := s.values.set w.toNat (some x), solvedCount := s.solvedCount + 1 }

theorem run_assign (w : WireId) (x : F.Elem) (s : State F) :
    (assign w x).run s =
      match s.values[w.toNat]? with
      | some none => .ok () (s.withValue w x)
      | some (some _) => .error (.fatal (.wireSolvedTwice w)) s
      | none => .error (.fatal (.wireOutOfRange w s.values.length)) s := by
  simp only [assign, EStateM.run_bind, EStateM.run_get]
  rcases s.values[w.toNat]? with _ | _ | x <;> rfl

theorem run_coeff (c : Circuit F) (id : CoeffId) (s : State F) :
    (coeff c id).run s =
      match c.coeffs.get? id with
      | some q => .ok q s
      | none => .error (.fatal (.coeffOutOfRange id)) s := by
  unfold coeff
  cases c.coeffs.get? id <;> rfl

theorem fills_withValue {w : WireId} (empty : s.values[w.toNat]? = some none)
    (hw : w.toNat ∈ W) (x : F.Elem) : Fills W K s (s.withValue w x) := by
  refine ⟨.set empty hw x, .refl K _, fun counted => ?_⟩
  obtain ⟨bound, unsolved⟩ := List.getElem?_eq_some_iff.1 empty
  simp only [State.Counted, State.withValue] at counted ⊢
  rw [List.countP_set bound, counted, unsolved]
  simp

theorem withValue_value {w : WireId} (empty : s.values[w.toNat]? = some none) (x : F.Elem) :
    (s.withValue w x).values[w.toNat]? = some (some x) := by
  obtain ⟨bound, -⟩ := List.getElem?_eq_some_iff.1 empty
  simp [State.withValue, bound]

theorem Writes.isSolved (w : WireId) : Writes (F := F) W K (isSolved w) := by
  intro s
  rw [run_isSolved]
  cases s.values[w.toNat]? <;> exact .refl W K s

theorem Writes.value (w : WireId) : Writes (F := F) W K (value w) := by
  intro s
  rw [run_value]
  rcases s.values[w.toNat]? with _ | _ | x <;> exact .refl W K s

theorem Writes.assign {w : WireId} (hw : w.toNat ∈ W) (x : F.Elem) : Writes W K (assign w x) := by
  intro s
  rw [run_assign]
  rcases h : s.values[w.toNat]? with _ | _ | y
  · exact .refl W K s
  · exact fills_withValue h hw x
  · exact .refl W K s

theorem Writes.coeff (c : Circuit F) (id : CoeffId) : Writes W K (coeff c id) := by
  intro s
  rw [run_coeff]
  cases c.coeffs.get? id <;> exact .refl W K s

theorem isSolved_ok {w : WireId} {b : Bool} :
    (isSolved w).run s = .ok b s' ↔ s' = s ∧ ∃ x, s.values[w.toNat]? = some x ∧ b = x.isSome := by
  rw [run_isSolved]
  cases s.values[w.toNat]? <;> simp [and_comm, eq_comm]

theorem value_ok {w : WireId} {x : F.Elem} :
    (value w).run s = .ok x s' ↔ s' = s ∧ s.values[w.toNat]? = some (some x) := by
  rw [run_value]
  rcases s.values[w.toNat]? with _ | _ | y <;> simp [and_comm, eq_comm]

theorem assign_ok {w : WireId} {x : F.Elem} {u : Unit} :
    (assign w x).run s = .ok u s' ↔ s.values[w.toNat]? = some none ∧ s' = s.withValue w x := by
  rw [run_assign]
  rcases s.values[w.toNat]? with _ | _ | y <;> simp [eq_comm]

theorem coeff_ok {c : Circuit F} {id : CoeffId} {q : F.Elem} :
    (coeff c id).run s = .ok q s' ↔ s' = s ∧ c.coeffs.get? id = some q := by
  rw [run_coeff]
  cases c.coeffs.get? id <;> simp [and_comm, eq_comm]

theorem fail_ok {e : FatalError} {a : α} : (fail e : Solve F α).run s = .ok a s' ↔ False := by
  simp

theorem unsatisfied_ok {c : Circuit F} {k : UInt32} {r : Relation F} {a : α} :
    (unsatisfied c k r : Solve F α).run s = .ok a s' ↔ False :=
  ⟨by rintro ⟨⟩, False.elim⟩

/-! ## Terms -/

theorem Writes.termValue (c : Circuit F) (t : Term) : Writes W K (termValue c t) := by
  unfold Solver.termValue
  split
  · exact .pure _
  · refine (Writes.value _).bind fun x => ?_
    split
    · exact .pure _
    · split
      · exact .pure _
      · split
        · exact .pure _
        · exact (Writes.coeff c _).bind fun q => .pure _

theorem run_termValue_zero (c : Circuit F) {t : Term} (h : t.isZero) (s : State F) :
    (termValue c t).run s = .ok 0 s := by
  simp [termValue, h]

/-- The value of a term is the product, also where the coefficient is not looked up. -/
theorem run_termValue {c : Circuit F} {t : Term} {x q : F.Elem}
    (solved : s.values[t.wire.toNat]? = some (some x)) (range : c.coeffs.get? t.coeff = some q) :
    (termValue c t).run s = .ok (q * x) s := by
  by_cases zero : t.isZero
  · have : t.coeff = CoeffId.zero := by simpa [Term.isZero] using zero
    rw [this, CoeffTable.get?_zero, Option.some.injEq] at range
    rw [run_termValue_zero c zero, ← range, zero_mul]
  · simp only [termValue, zero, Bool.false_eq_true, if_false, EStateM.run_bind, run_value, solved]
    split
    · next one =>
      rw [one, CoeffTable.get?_one, Option.some.injEq] at range
      simp [← range]
    · split
      · next two =>
        rw [two, CoeffTable.get?_two, Option.some.injEq] at range
        simp [← range, PrimeField.Elem.double_eq]
      · split
        · next minusOne =>
          rw [minusOne, CoeffTable.get?_minusOne, Option.some.injEq] at range
          simp [← range]
        · rw [EStateM.run_bind, run_coeff, range]
          rfl

theorem termValue_ok {c : Circuit F} {t : Term} {x : F.Elem}
    (h : (termValue c t).run s = .ok x s') :
    s' = s ∧ (t.isZero = false → s.Solved t.wire) ∧
      ∀ w : List F.Elem, Extends w s → x = c.termOn w t := by
  cases zero : t.isZero with
  | true =>
    rw [run_termValue_zero c zero, EStateM.Result.ok.injEq] at h
    obtain ⟨rfl, rfl⟩ := h
    exact ⟨rfl, by simp, fun w _ => (c.termOn_zero w zero).symm⟩
  | false =>
    have h' := h
    simp only [termValue, zero, Bool.false_eq_true, if_false, bind_ok, value_ok] at h'
    obtain ⟨y, _, ⟨rfl, solved⟩, h'⟩ := h'
    have range : ∃ q, c.coeffs.get? t.coeff = some q := by
      split at h'
      · next one => exact ⟨1, by rw [one]; rfl⟩
      · split at h'
        · next two => exact ⟨_, by rw [two]; rfl⟩
        · split at h'
          · next minusOne => exact ⟨_, by rw [minusOne]; rfl⟩
          · obtain ⟨q, _, range, -⟩ := bind_ok.1 h'
            exact ⟨q, (coeff_ok.1 range).2⟩
    obtain ⟨q, range⟩ := range
    rw [run_termValue solved range, EStateM.Result.ok.injEq] at h
    obtain ⟨rfl, rfl⟩ := h
    refine ⟨rfl, fun _ => ⟨y, solved⟩, fun w extension => ?_⟩
    rw [Circuit.termOn, Circuit.coeffOn_eq range, wireOn_eq (extension _ _ solved)]

end CircuitWitness.Solver
