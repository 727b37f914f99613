import CircuitWitness.Proofs.Solver.Execution
import CircuitWitness.Solver.RankOne

/-!
# Solved rank-one constraints

While the terms of a constraint are scanned, the sums so far and the one unsolved term make up the
value of what was scanned, under every assignment that extends the state. So the row that is
recorded in the end is the row of every such assignment, whatever side the unsolved term was on.

Results:
* `scan_ok`: what a scan tells of the constraint.
* `missing?_product`: the missing value makes the product hold.
* `solveR1C_ok`: a solved constraint holds, its row is recorded, and all its wires are solved.
* `WritesOne.solveR1C`: only one wire of the constraint at most and its own row are filled.
-/

namespace CircuitWitness.Solver

variable {F : PrimeField} {c : Circuit F} {s s' : State F}

/-! ## Rows -/

theorem Row.add_comm (row : Row F) (side side' : Side) (x y : F.Elem) :
    (row.add side x).add side' y = (row.add side' y).add side x := by
  cases side <;> cases side' <;> simp [Row.add, add_right_comm]

theorem Row.add_add (row : Row F) (side : Side) (x y : F.Elem) :
    (row.add side x).add side y = row.add side (x + y) := by
  cases side <;> simp [Row.add, add_assoc]

@[simp] theorem Row.add_zero (row : Row F) (side : Side) : row.add side 0 = row := by
  cases side <;> simp [Row.add]

/-- The product holds for the values of a row. -/
def Row.Holds (row : Row F) : Prop := row.a * row.b = row.c

theorem missing?_product (hp : F.IsPrime) {row : Row F} {side : Side} {x : F.Elem}
    (h : row.missing? side = some x) : (row.add side x).Holds := by
  cases side with
  | l =>
    simp only [Row.missing?] at h
    simp only [Row.Holds, Row.add]
    split at h
    · next i inverse =>
      obtain rfl := Option.some.inj h
      linear_combination row.c * PrimeField.Elem.mul_of_inverse? hp inverse
    · next noInverse =>
      split at h
      · next c_zero =>
        rw [PrimeField.Elem.inverse?_eq_none_iff.1 noInverse, c_zero, mul_zero]
      · simp at h
  | r =>
    simp only [Row.missing?] at h
    simp only [Row.Holds, Row.add]
    split at h
    · next i inverse =>
      obtain rfl := Option.some.inj h
      linear_combination row.c * PrimeField.Elem.mul_of_inverse? hp inverse
    · next noInverse =>
      split at h
      · next c_zero =>
        rw [PrimeField.Elem.inverse?_eq_none_iff.1 noInverse, c_zero, zero_mul]
      · simp at h
  | o =>
    obtain rfl := Option.some.inj h
    simp only [Row.Holds, Row.add]
    ring

/-! ## The scan -/

/-- The row that the sums and the unsolved term make up. -/
def Partial.total (c : Circuit F) (w : List F.Elem) (p : Partial F) : Row F :=
  match p.unknown with
  | none => p.row
  | some (side, t) => p.row.add side (c.termOn w t)

/-- What the scan of some terms of one side does to a partial sum. -/
structure Scanned (c : Circuit F) (s : State F) (side : Side) (e : LinearExpr)
    (p p' : Partial F) : Prop where
  total : ∀ w : List F.Elem, Extends w s → p'.total c w = (p.total c w).add side (c.exprOn w e)
  covers : ∀ t ∈ e, s.Solved t.wire ∨ ∃ side', p'.unknown = some (side', t)
  keeps : ∀ u, p.unknown = some u → p'.unknown = some u
  origin : ∀ u, p'.unknown = some u →
    p.unknown = some u ∨ u.2 ∈ e ∧ s.values[u.2.wire.toNat]? = some none

theorem scanTerm_ok {constraint : UInt32} {side : Side} {p p' : Partial F} {t : Term}
    (h : (scanTerm c constraint side p t).run s = .ok p' s') :
    s' = s ∧ Scanned c s side [t] p p' := by
  simp only [scanTerm, bind_ok, isSolved_ok] at h
  obtain ⟨b, _, ⟨rfl, x, place, rfl⟩, h⟩ := h
  cases x with
  | some x =>
    simp only [Option.isSome_some, if_true, bind_ok, pure_ok] at h
    obtain ⟨y, _, value, rfl, rfl⟩ := h
    obtain ⟨rfl, -, value⟩ := termValue_ok value
    refine ⟨rfl, fun w extension => ?_, ?_, fun u hu => hu, fun u hu => .inl hu⟩
    · rw [value w extension]
      simp only [Partial.total, Circuit.exprOn_cons, Circuit.exprOn_nil, add_zero]
      split
      · rfl
      · rw [Row.add_comm]
    · rintro t' ht
      obtain rfl := List.mem_singleton.1 ht
      exact .inl ⟨x, place⟩
  | none =>
    simp only [Option.isSome_none, Bool.false_eq_true, if_false] at h
    cases unknown : p.unknown with
    | some u =>
      simp only [unknown, Option.isSome_some, if_true, bind_ok, fail_ok] at h
      obtain ⟨_, _, ⟨⟩, _⟩ := h
    | none =>
      simp only [unknown, Option.isSome_none, Bool.false_eq_true, if_false, pure_ok] at h
      obtain ⟨rfl, rfl⟩ := h
      refine ⟨rfl, fun w extension => ?_, ?_, by simp [unknown], ?_⟩
      · simp [Partial.total, unknown]
      · rintro t' ht
        obtain rfl := List.mem_singleton.1 ht
        exact .inr ⟨side, rfl⟩
      · rintro u hu
        obtain rfl := Option.some.inj hu
        exact .inr ⟨by simp, place⟩

theorem Scanned.append {side : Side} {e e' : LinearExpr} {p p' p'' : Partial F}
    (h : Scanned c s side e p p') (h' : Scanned c s side e' p' p'') :
    Scanned c s side (e ++ e') p p'' := by
  refine ⟨fun w extension => ?_, fun t ht => ?_, fun u hu => h'.keeps u (h.keeps u hu),
    fun u hu => ?_⟩
  · rw [h'.total w extension, h.total w extension, Row.add_add, c.exprOn_append]
  · rcases List.mem_append.1 ht with ht | ht
    · exact (h.covers t ht).imp_right fun ⟨side', found⟩ => ⟨side', h'.keeps _ found⟩
    · exact h'.covers t ht
  · obtain before | ⟨mem, unsolved⟩ := h'.origin u hu
    · exact (h.origin u before).imp_right fun ⟨mem, unsolved⟩ =>
        ⟨List.mem_append_left _ mem, unsolved⟩
    · exact .inr ⟨List.mem_append_right _ mem, unsolved⟩

theorem scanExpr_ok {constraint : UInt32} {side : Side} {e : LinearExpr} {p p' : Partial F}
    (h : (e.foldlM (scanTerm c constraint side) p).run s = .ok p' s') :
    s' = s ∧ Scanned c s side e p p' := by
  induction e generalizing p with
  | nil =>
    simp only [List.foldlM_nil, pure_ok] at h
    obtain ⟨rfl, rfl⟩ := h
    exact ⟨rfl, by simp, by simp, fun u hu => hu, fun u hu => .inl hu⟩
  | cons t e ih =>
    rw [List.foldlM_cons, bind_ok] at h
    obtain ⟨p₁, s₁, first, rest⟩ := h
    obtain ⟨rfl, first⟩ := scanTerm_ok first
    obtain ⟨rfl, rest⟩ := ih rest
    exact ⟨rfl, first.append rest⟩

/-- A scan leaves the state, and sums and unsolved term make up the row of the constraint. -/
theorem scan_ok {constraint : UInt32} {r : R1C} {p : Partial F}
    (h : (scan c constraint r).run s = .ok p s') :
    s' = s ∧ (∀ w : List F.Elem, Extends w s → p.total c w = c.rowOn w r) ∧
      (∀ t ∈ r.terms, s.Solved t.wire ∨ ∃ side, p.unknown = some (side, t)) ∧
      ∀ u, p.unknown = some u → u.2 ∈ r.terms ∧ s.values[u.2.wire.toNat]? = some none := by
  simp only [scan, bind_ok] at h
  obtain ⟨p₁, _, left, p₂, _, right, out⟩ := h
  obtain ⟨rfl, left⟩ := scanExpr_ok left
  obtain ⟨rfl, right⟩ := scanExpr_ok right
  obtain ⟨rfl, out⟩ := scanExpr_ok out
  refine ⟨rfl, fun w extension => ?_, fun t ht => ?_, fun u hu => ?_⟩
  · rw [out.total w extension, right.total w extension, left.total w extension]
    simp [Partial.total, Partial.blank, Row.add, Circuit.rowOn]
  · simp only [R1C.terms, List.mem_append] at ht
    obtain (ht | ht) | ht := ht
    · exact (left.covers t ht).imp_right <| Exists.imp fun side found =>
        out.keeps _ (right.keeps _ found)
    · exact (right.covers t ht).imp_right <| Exists.imp fun side found => out.keeps _ found
    · exact out.covers t ht
  · simp only [R1C.terms, List.mem_append]
    obtain hu | ⟨mem, unsolved⟩ := out.origin u hu
    · obtain hu | ⟨mem, unsolved⟩ := right.origin u hu
      · obtain hu | ⟨mem, unsolved⟩ := left.origin u hu
        · simp [Partial.blank] at hu
        · exact ⟨.inl (.inl mem), unsolved⟩
      · exact ⟨.inl (.inr mem), unsolved⟩
    · exact ⟨.inr mem, unsolved⟩

/-! ## The value of the wire -/

theorem Writes.wireOfTerm {W K : Set ℕ} (x : F.Elem) (id : CoeffId) (q : F.Elem) :
    Writes W K (wireOfTerm x id q) := by
  unfold Solver.wireOfTerm
  split
  · exact .pure _
  · split
    · exact .pure _
    · split
      · exact .fail _
      · split
        · exact .pure _
        · exact .fail _

/-- The value of the wire gives the term its value. -/
theorem wireOfTerm_ok (hp : F.IsPrime) {x y q : F.Elem} {id : CoeffId}
    (h : (wireOfTerm x id q).run s = .ok y s') (range : c.coeffs.get? id = some q) :
    s' = s ∧ q * y = x := by
  unfold wireOfTerm at h
  split at h
  · next one =>
    obtain ⟨rfl, rfl⟩ := pure_ok.1 h
    rw [one, CoeffTable.get?_one, Option.some.injEq] at range
    exact ⟨rfl, by rw [← range, one_mul]⟩
  · split at h
    · next minusOne =>
      obtain ⟨rfl, rfl⟩ := pure_ok.1 h
      rw [minusOne, CoeffTable.get?_minusOne, Option.some.injEq] at range
      exact ⟨rfl, by rw [← range]; ring⟩
    · split at h
      · simp at h
      · split at h
        · next i inverse =>
          obtain ⟨rfl, rfl⟩ := pure_ok.1 h
          exact ⟨rfl, by linear_combination x * PrimeField.Elem.mul_of_inverse? hp inverse⟩
        · simp at h

/-! ## Rows of the state -/

/-- The state after a row was recorded. -/
def State.withRow (s : State F) (constraint : UInt32) (row : Row F) : State F :=
  { s with rows := s.rows.set constraint.toNat (some row) }

theorem run_record (constraint : UInt32) (row : Row F) (s : State F) :
    (record constraint row).run s =
      match s.rows[constraint.toNat]? with
      | some none => .ok () (s.withRow constraint row)
      | some (some _) => .error (.fatal (.malformed constraint .solvedTwice)) s
      | none => .error (.fatal (.malformed constraint .unknownConstraint)) s := by
  simp only [record, EStateM.run_bind, EStateM.run_get]
  rcases s.rows[constraint.toNat]? with _ | _ | x <;> rfl

theorem record_ok {constraint : UInt32} {row : Row F} {u : Unit} :
    (record constraint row).run s = .ok u s' ↔
      s.rows[constraint.toNat]? = some none ∧ s' = s.withRow constraint row := by
  rw [run_record]
  rcases s.rows[constraint.toNat]? with _ | _ | y <;> simp [eq_comm]

theorem withRow_row {constraint : UInt32} (empty : s.rows[constraint.toNat]? = some none)
    (row : Row F) : (s.withRow constraint row).rows[constraint.toNat]? = some (some row) := by
  obtain ⟨bound, -⟩ := List.getElem?_eq_some_iff.1 empty
  simp [State.withRow, bound]

theorem Writes.record {W K : Set ℕ} {constraint : UInt32} (hk : constraint.toNat ∈ K)
    (row : Row F) : Writes W K (record constraint row) := by
  intro s
  rw [run_record]
  rcases h : s.rows[constraint.toNat]? with _ | _ | y
  · exact .refl W K s
  · exact ⟨.refl W _, .set h hk row, id⟩
  · exact .refl W K s

/-! ## Constraints -/

theorem Writes.scanTerm {W K : Set ℕ} (c : Circuit F) (constraint : UInt32) (side : Side)
    (p : Partial F) (t : Term) : Writes W K (scanTerm c constraint side p t) := by
  refine (Writes.isSolved _).bind fun b => ?_
  split
  · exact (Writes.termValue c t).bind fun x => .pure _
  · split
    · exact (Writes.fail _).bind fun _ => .pure _
    · exact .pure _

theorem Writes.scan {W K : Set ℕ} (c : Circuit F) (constraint : UInt32) (r : R1C) :
    Writes W K (scan c constraint r) :=
  (Writes.foldlM (.scanTerm c constraint .l) _ _).bind fun _ =>
    (Writes.foldlM (.scanTerm c constraint .r) _ _).bind fun _ =>
    .foldlM (.scanTerm c constraint .o) _ _

/-- A constraint fills one of its wires at most, and its own row. -/
theorem WritesOne.solveR1C (c : Circuit F) (constraint : UInt32) (r : R1C) :
    WritesOne (places (r.terms.map Term.wire)) { constraint.toNat } (solveR1C c constraint r) := by
  refine WritesOne.bind_of_ok (.scan c constraint r) fun p s s' scanned => ?_
  obtain ⟨-, -, -, origin⟩ := scan_ok scanned
  have rowPlace : constraint.toNat ∈ ({ constraint.toNat } : Set ℕ) := rfl
  split
  · refine .none ?_
    dsimp only
    split
    · exact (Writes.unsatisfied c _ _).bind fun _ => .record rowPlace _
    · exact .record rowPlace _
  · next side t unknown =>
    have mem : t.wire ∈ r.terms.map Term.wire := List.mem_map_of_mem (origin _ unknown).1
    refine .single ?_ (mem_places.2 mem)
    dsimp only
    split
    · exact .unsatisfied c _ _
    · exact (Writes.coeff c _).bind fun q => (Writes.wireOfTerm _ _ _).bind fun y =>
        (Writes.assign (Set.mem_singleton _) y).bind fun _ => .record rowPlace _

theorem Writes.solveR1C (c : Circuit F) (constraint : UInt32) (r : R1C) :
    Writes (places (r.terms.map Term.wire)) { constraint.toNat } (solveR1C c constraint r) :=
  (WritesOne.solveR1C c constraint r).writes

/-- A solved constraint holds under every assignment that extends the state, and its row is the
    row of every such assignment. -/
theorem solveR1C_ok (hp : F.IsPrime) {constraint : UInt32} {r : R1C} {u : Unit}
    (h : (solveR1C c constraint r).run s = .ok u s') :
    (∀ t ∈ r.terms, s'.Solved t.wire) ∧ ∀ w : List F.Elem, Extends w s' →
      (c.rowOn w r).Holds ∧ s'.rows[constraint.toNat]? = some (some (c.rowOn w r)) := by
  have later := (Writes.solveR1C c constraint r).ok h
  simp only [solveR1C, bind_ok] at h
  obtain ⟨p, _, scanned, h⟩ := h
  obtain ⟨rfl, total, covers, origin⟩ := scan_ok scanned
  cases unknown : p.unknown with
  | none =>
    simp only [unknown] at h
    split at h
    · simp only [bind_ok, unsatisfied_ok] at h
      obtain ⟨_, _, ⟨⟩, _⟩ := h
    · next holds =>
      obtain ⟨empty, rfl⟩ := record_ok.1 h
      refine ⟨fun t ht => ?_, fun w extension => ?_⟩
      · obtain solved | ⟨side, found⟩ := covers t ht
        · exact solved.of_fills later
        · simp [unknown] at found
      · have row := total w (extension.of_fills later)
        simp only [Partial.total, unknown] at row
        rw [← row]
        exact ⟨not_not.1 holds, withRow_row empty p.row⟩
  | some found =>
    obtain ⟨side, t⟩ := found
    simp only [unknown] at h
    split at h
    · exact absurd h (by simp [unsatisfied_ok])
    · next x missing =>
      simp only [bind_ok, coeff_ok, assign_ok, record_ok] at h
      obtain ⟨q, _, ⟨rfl, range⟩, y, _, wire, _, _, ⟨unsolved, rfl⟩, empty, rfl⟩ := h
      obtain ⟨rfl, value⟩ := wireOfTerm_ok hp wire range
      have assigned := withValue_value unsolved y
      refine ⟨fun t' ht => ?_, fun w extension => ?_⟩
      · obtain solved | ⟨side', found⟩ := covers t' ht
        · exact solved.of_fills later
        · obtain ⟨-, rfl⟩ := Prod.mk.inj (Option.some.inj (unknown.symm.trans found))
          exact ⟨y, assigned⟩
      · have row := total w (extension.of_fills later)
        have term : c.termOn w t = x := by
          rw [Circuit.termOn, Circuit.coeffOn_eq range, wireOn_eq (extension _ _ assigned), value]
        simp only [Partial.total, unknown, term] at row
        rw [← row]
        exact ⟨missing?_product hp missing, withRow_row empty _⟩

end CircuitWitness.Solver
