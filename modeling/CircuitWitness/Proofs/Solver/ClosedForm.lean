import CircuitWitness.Proofs.Blueprint.Encoding
import CircuitWitness.Proofs.Solver.Gate

/-!
# Gates in closed form

Products, sums and bits are solved from their words if both factors are solved. Operands without
weight are read, too; their coefficients are zero, so they do not change the value of the gate.

Results:
* `solvePackedGate_ok`: what `solveGate_ok` says holds on both ways.
* `WritesOne.solvePackedGate`: only one of the wires that take part in the gate is filled, at most.
-/

namespace CircuitWitness

variable {F : PrimeField}

/-! ## The shapes under an assignment -/

namespace Circuit

variable (c : Circuit F) (w : List F.Elem)

theorem gateAt_product (qm : CoeffId) (xa xb xc : WireId) (l r o : F.Elem) :
    c.gateAt (.product qm xa xb xc) l r o = c.coeffOn qm * l * r - o := by
  have zero : c.coeffOn 0 = 0 := c.coeffOn_zero
  simp only [gateAt, Gate.product, Gate.empty, coeffOn_minusOne, zero]
  ring

theorem gateAt_sum (xa xb xc : WireId) (ql qr qc : CoeffId) (l r o : F.Elem) :
    c.gateAt (.sum xa xb xc ql qr qc) l r o
      = c.coeffOn ql * l + c.coeffOn qr * r + c.coeffOn qc - o := by
  have zero : c.coeffOn 0 = 0 := c.coeffOn_zero
  simp only [gateAt, Gate.sum, Gate.empty, coeffOn_minusOne, zero]
  ring

theorem gateAt_bit (xa : WireId) (ql qm : CoeffId) (l r o : F.Elem) :
    c.gateAt (.bit xa ql qm) l r o = c.coeffOn ql * l + c.coeffOn qm * l * r := by
  have zero : c.coeffOn 0 = 0 := c.coeffOn_zero
  simp only [gateAt, Gate.bit, Gate.empty, zero]
  ring

theorem gateOn_product (qm : CoeffId) (xa xb xc : WireId) :
    c.gateOn w (.product qm xa xb xc)
      = c.coeffOn qm * wireOn w xa * wireOn w xb - wireOn w xc :=
  c.gateAt_product qm xa xb xc _ _ _

theorem gateOn_sum (xa xb xc : WireId) (ql qr qc : CoeffId) :
    c.gateOn w (.sum xa xb xc ql qr qc)
      = c.coeffOn ql * wireOn w xa + c.coeffOn qr * wireOn w xb + c.coeffOn qc - wireOn w xc :=
  c.gateAt_sum xa xb xc ql qr qc _ _ _

theorem gateOn_bit (xa : WireId) (ql qm : CoeffId) :
    c.gateOn w (.bit xa ql qm)
      = c.coeffOn ql * wireOn w xa + c.coeffOn qm * wireOn w xa * wireOn w xa :=
  c.gateAt_bit xa ql qm _ _ _

end Circuit

namespace Solver

variable {c : Circuit F} {s s' : State F} {W K : Set ℕ}

/-! ## Words -/

/-- What the words of a gate in closed form say. -/
theorem closedForm_words {b : Blueprint} {words : CallData} {g : Gate}
    (closed : b.isSolvable) (h : b.gateOf words = .ok g) :
    (∃ qm xa xb xc, b = .mul ∧ words = [qm, xa, xb, xc] ∧ g = .product qm xa xb xc) ∨
    (∃ xa xb xc ql qr qc, b = .add ∧ words = [xa, xb, xc, ql, qr, qc] ∧
      g = .sum xa xb xc ql qr qc) ∨
    ∃ xa ql qm, b = .bool ∧ words = [xa, ql, qm] ∧ g = .bit xa ql qm := by
  obtain ⟨-, read⟩ := Blueprint.decompressGate_ok.1 (Blueprint.contentAfter_ok.1 h)
  unfold Gate.ofWords at read
  split at read
  · simp [Blueprint.isSolvable] at closed
  · exact .inl ⟨_, _, _, _, rfl, rfl, (Except.ok.inj read).symm⟩
  · exact .inr (.inl ⟨_, _, _, _, _, _, rfl, rfl, (Except.ok.inj read).symm⟩)
  · exact .inr (.inr ⟨_, _, _, rfl, rfl, (Except.ok.inj read).symm⟩)
  · cases read

/-! ## Accesses -/

theorem wireAccess_coeff (c : Circuit F) (constraint : UInt32) (id : CoeffId) :
    (wireAccess c constraint).coeff id = coeff c id := rfl

theorem wireAccess_value (c : Circuit F) (constraint : UInt32) (x : WireId) :
    (wireAccess c constraint).value x = value x := rfl

theorem Writes.assignOrCheck (c : Circuit F) (constraint : UInt32) {x : WireId}
    (hx : x.toNat ∈ W) (v : F.Elem) :
    Writes W K ((wireAccess c constraint).assignOrCheck x v) := by
  refine (Writes.isSolved x).bind fun b => ?_
  split
  · refine (Writes.value x).bind fun known => ?_
    unfold wireAccess
    dsimp only
    split
    · exact .pure _
    · exact .unsatisfied c _ _
  · exact .assign hx v

theorem assignOrCheck_ok {constraint : UInt32} {x : WireId} {v : F.Elem} {u : Unit}
    (h : ((wireAccess c constraint).assignOrCheck x v).run s = .ok u s') :
    s'.values[x.toNat]? = some (some v) := by
  simp only [WireAccess.assignOrCheck, wireAccess, bind_ok, isSolved_ok] at h
  obtain ⟨b, _, ⟨rfl, place, found, rfl⟩, h⟩ := h
  cases place with
  | some known =>
    simp only [Option.isSome_some, if_true, bind_ok, value_ok] at h
    obtain ⟨_, _, ⟨rfl, solved⟩, check⟩ := h
    split at check
    · next same =>
      obtain ⟨-, rfl⟩ := pure_ok.1 check
      rw [solved, same]
    · cases check
  | none =>
    simp only [Option.isSome_none, Bool.false_eq_true, if_false] at h
    obtain ⟨empty, rfl⟩ := assign_ok.1 h
    exact withValue_value empty v

/-! ## Gates -/

/-- The three shapes fill nothing but their output. -/
theorem WritesOne.closedForm (c : Circuit F) (constraint : UInt32) {b : Blueprint}
    {words : CallData} {g : Gate} (closed : b.isSolvable) (read : b.gateOf words = .ok g) :
    WritesOne (places g.wires) K (b.solve (wireAccess c constraint) words) := by
  obtain ⟨qm, xa, xb, xc, rfl, rfl, rfl⟩ | ⟨xa, xb, xc, ql, qr, qc, rfl, rfl, rfl⟩ |
    ⟨xa, ql, qm, rfl, rfl, rfl⟩ := closedForm_words closed read
  · have output : xc.toNat ∈ places (Gate.product qm xa xb xc).wires :=
      mem_places.2 (Gate.mem_wires.2 (.inr (.inr ⟨rfl, rfl⟩)))
    refine .single ?_ output
    exact (Writes.coeff c _).bind fun _ => (Writes.value _).bind fun _ =>
      (Writes.value _).bind fun _ => .assignOrCheck c constraint (Set.mem_singleton _) _
  · have output : xc.toNat ∈ places (Gate.sum xa xb xc ql qr qc).wires :=
      mem_places.2 (Gate.mem_wires.2 (.inr (.inr ⟨rfl, rfl⟩)))
    refine .single ?_ output
    exact (Writes.coeff c _).bind fun _ => (Writes.value _).bind fun _ =>
      (Writes.coeff c _).bind fun _ => (Writes.value _).bind fun _ =>
      (Writes.coeff c _).bind fun _ => .assignOrCheck c constraint (Set.mem_singleton _) _
  · refine .none ((Writes.value _).bind fun _ => (Writes.coeff c _).bind fun _ =>
      (Writes.coeff c _).bind fun _ => ?_)
    unfold wireAccess
    dsimp only
    split
    · exact .pure _
    · exact .unsatisfied c _ _

theorem Writes.factorsSolved (g : Gate) {W : Set ℕ} :
    Writes (F := F) W K (Solver.factorsSolved g) := by
  refine (Writes.isSolved _).bind fun _ => ?_
  split
  · exact .isSolved _
  · exact .pure _

/-- A gate fills one of the wires that take part at most, on both ways. -/
theorem WritesOne.solvePackedGate (c : Circuit F) (constraint : UInt32) {b : Blueprint}
    {words : CallData} {g : Gate} (read : b.gateOf words = .ok g) :
    WritesOne (places g.wires) K (solvePackedGate c constraint b words g) := by
  refine WritesOne.bind_of_ok (.factorsSolved g) fun ready _ _ _ => ?_
  split
  · next both =>
    exact .closedForm c constraint (by simp_all) read
  · exact .solveGate c constraint g

theorem Writes.solvePackedGate (c : Circuit F) (constraint : UInt32) {b : Blueprint}
    {words : CallData} {g : Gate} (read : b.gateOf words = .ok g) :
    Writes (places g.wires) K (solvePackedGate c constraint b words g) :=
  (WritesOne.solvePackedGate c constraint read).writes

theorem solveProduct_ok {constraint : UInt32} {qm : CoeffId} {xa xb xc : WireId} {u : Unit}
    (h : ((wireAccess c constraint).solveProduct qm xa xb xc).run s = .ok u s') :
    ∃ q a b, c.coeffs.get? qm = some q ∧ s.values[xa.toNat]? = some (some a) ∧
      s.values[xb.toNat]? = some (some b) ∧ s'.values[xc.toNat]? = some (some (q * a * b)) := by
  simp only [WireAccess.solveProduct, wireAccess_coeff, wireAccess_value, bind_ok, coeff_ok,
    value_ok] at h
  obtain ⟨q, _, ⟨rfl, hq⟩, a, _, ⟨rfl, ha⟩, b, _, ⟨rfl, hb⟩, output⟩ := h
  exact ⟨q, a, b, hq, ha, hb, assignOrCheck_ok output⟩

theorem solveSum_ok {constraint : UInt32} {xa xb xc : WireId} {ql qr qc : CoeffId} {u : Unit}
    (h : ((wireAccess c constraint).solveSum xa xb xc ql qr qc).run s = .ok u s') :
    ∃ l a r b q, c.coeffs.get? ql = some l ∧ s.values[xa.toNat]? = some (some a) ∧
      c.coeffs.get? qr = some r ∧ s.values[xb.toNat]? = some (some b) ∧
      c.coeffs.get? qc = some q ∧ s'.values[xc.toNat]? = some (some (l * a + r * b + q)) := by
  simp only [WireAccess.solveSum, wireAccess_coeff, wireAccess_value, bind_ok, coeff_ok,
    value_ok] at h
  obtain ⟨l, _, ⟨rfl, hl⟩, a, _, ⟨rfl, ha⟩, r, _, ⟨rfl, hr⟩, b, _, ⟨rfl, hb⟩, q, _, ⟨rfl, hq⟩,
    output⟩ := h
  exact ⟨l, a, r, b, q, hl, ha, hr, hb, hq, assignOrCheck_ok output⟩

theorem checkBit_ok {constraint : UInt32} {xa : WireId} {ql qm : CoeffId} {u : Unit}
    (h : ((wireAccess c constraint).checkBit xa ql qm).run s = .ok u s') :
    ∃ a l q, s.values[xa.toNat]? = some (some a) ∧ c.coeffs.get? ql = some l ∧
      c.coeffs.get? qm = some q ∧ l * a + q * a * a = 0 := by
  simp only [WireAccess.checkBit, wireAccess_coeff, wireAccess_value, bind_ok, coeff_ok,
    value_ok] at h
  obtain ⟨a, _, ⟨rfl, ha⟩, l, _, ⟨rfl, hl⟩, q, _, ⟨rfl, hq⟩, check⟩ := h
  unfold wireAccess at check
  dsimp only at check
  split at check
  · next holds => exact ⟨a, l, q, ha, hl, hq, holds⟩
  · cases check

/-- The three shapes leave their gate solved, and it holds. -/
theorem closedForm_ok {constraint : UInt32} {b : Blueprint} {words : CallData} {g : Gate}
    {u : Unit} (closed : b.isSolvable) (read : b.gateOf words = .ok g)
    (h : (b.solve (wireAccess c constraint) words).run s = .ok u s') :
    (∀ x ∈ g.wires, s'.Solved x) ∧ ∀ w : List F.Elem, Extends w s' → c.gateOn w g = 0 := by
  have later := (WritesOne.closedForm (K := ∅) c constraint closed read).writes.ok h
  obtain ⟨qm, xa, xb, xc, rfl, rfl, rfl⟩ | ⟨xa, xb, xc, ql, qr, qc, rfl, rfl, rfl⟩ |
    ⟨xa, ql, qm, rfl, rfl, rfl⟩ := closedForm_words closed read
  · obtain ⟨q, a, b, hq, ha, hb, hc⟩ := solveProduct_ok h
    refine ⟨fun x hx => ?_, fun w extension => ?_⟩
    · obtain ⟨-, rfl⟩ | ⟨-, rfl⟩ | ⟨-, rfl⟩ := Gate.mem_wires.1 hx
      · exact ⟨a, later.values.keeps ha⟩
      · exact ⟨b, later.values.keeps hb⟩
      · exact ⟨_, hc⟩
    · have before := extension.of_fills later
      rw [Circuit.gateOn_product, Circuit.coeffOn_eq hq, wireOn_eq (before _ _ ha),
        wireOn_eq (before _ _ hb), wireOn_eq (extension _ _ hc), sub_self]
  · obtain ⟨l, a, r, b, q, hl, ha, hr, hb, hq, hc⟩ := solveSum_ok h
    refine ⟨fun x hx => ?_, fun w extension => ?_⟩
    · obtain ⟨-, rfl⟩ | ⟨-, rfl⟩ | ⟨-, rfl⟩ := Gate.mem_wires.1 hx
      · exact ⟨a, later.values.keeps ha⟩
      · exact ⟨b, later.values.keeps hb⟩
      · exact ⟨_, hc⟩
    · have before := extension.of_fills later
      rw [Circuit.gateOn_sum, Circuit.coeffOn_eq hl, Circuit.coeffOn_eq hr,
        Circuit.coeffOn_eq hq, wireOn_eq (before _ _ ha), wireOn_eq (before _ _ hb),
        wireOn_eq (extension _ _ hc), sub_self]
  · obtain ⟨a, l, q, ha, hl, hq, holds⟩ := checkBit_ok h
    refine ⟨fun x hx => ?_, fun w extension => ?_⟩
    · obtain ⟨-, rfl⟩ | ⟨-, rfl⟩ | ⟨-, rfl⟩ := Gate.mem_wires.1 hx
      all_goals exact ⟨a, later.values.keeps ha⟩
    · rw [Circuit.gateOn_bit, Circuit.coeffOn_eq hl, Circuit.coeffOn_eq hq,
        wireOn_eq (extension.of_fills later _ _ ha), holds]

theorem closedForm_plain {b : Blueprint} {words : CallData} {g : Gate} (closed : b.isSolvable)
    (read : b.gateOf words = .ok g) : g.commitment = .plain := by
  obtain ⟨qm, xa, xb, xc, rfl, rfl, rfl⟩ | ⟨xa, xb, xc, ql, qr, qc, rfl, rfl, rfl⟩ |
    ⟨xa, ql, qm, rfl, rfl, rfl⟩ := closedForm_words closed read
  all_goals rfl

/-- A gate that asserts a committed value fills nothing. -/
theorem Writes.passedOver (c : Circuit F) (constraint : UInt32) {b : Blueprint} {words : CallData}
    {g : Gate} (read : b.gateOf words = .ok g) (asserts : g.commitment = .asserts) {W : Set ℕ} :
    Writes W K (Solver.solvePackedGate c constraint b words g) := by
  refine (Writes.factorsSolved g).bind fun ready => ?_
  split
  · next both =>
    have plain := closedForm_plain (by simp_all) read
    rw [plain] at asserts
    cases asserts
  · rw [Solver.solveGate, if_pos asserts]
    exact .pure ()

/-- A gate that ended well is solved unless it is passed over, and a plain one holds. -/
theorem solvePackedGate_ok (hp : F.IsPrime) {constraint : UInt32} {b : Blueprint}
    {words : CallData} {g : Gate} {u : Unit} (read : b.gateOf words = .ok g)
    (h : (solvePackedGate c constraint b words g).run s = .ok u s') :
    (g.commitment ≠ .asserts → ∀ x ∈ g.wires, s'.Solved x) ∧
      (g.commitment = .plain → ∀ w : List F.Elem, Extends w s' → c.gateOn w g = 0) := by
  obtain ⟨ready, s₁, -, h⟩ := bind_ok.1 h
  split at h
  · next both =>
    obtain ⟨solved, holds⟩ := closedForm_ok (by simp_all) read h
    exact ⟨fun _ => solved, fun _ => holds⟩
  · exact solveGate_ok hp h

end Solver

end CircuitWitness
