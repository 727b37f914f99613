import CircuitWitness.Proofs.Blueprint.Encoding
import CircuitWitness.Proofs.Circuit.Evaluation

/-!
# Special layouts keep the meaning of a gate

The layouts for products, sums and bits leave coefficients and operands out of the words, and
unpacking puts in those that the layout implies. A gate is packed only if nothing that its equation
reads gets lost: the gate that is unpacked has the same value under every assignment, and the same
wires take part. A product may leave its output coefficient unset; it is read as minus one.

Results:
* `shapeFault?_mul`, `shapeFault?_add`, `shapeFault?_bool`: the gates of each shape.
* `sameMeaning_recoded`: a gate of a shape survives its layout.
* `carried_or_implied`: the words carry its coefficients, or the layout implies them.
* `special_layouts_exact`: a gate is packed without loss or refused.
-/

namespace CircuitWitness

variable {F : PrimeField} {b : Blueprint} {g : Gate}

/-! ## Values of gates -/

namespace Gate

/-- The coefficient with an id in a list of coefficients, zero past its end. -/
def coeffIn (table : List F.Elem) (q : CoeffId) : F.Elem := table[q.toNat]?.getD 0

/-- The left side of a gate over a list of coefficients. -/
def valueIn (table : List F.Elem) (w : WireId → F.Elem) (g : Gate) : F.Elem :=
  coeffIn table g.ql * w g.xa + coeffIn table g.qr * w g.xb + coeffIn table g.qo * w g.xc
    + coeffIn table g.qm * w g.xa * w g.xb + coeffIn table g.qc

/-- In a circuit the list is that of its coefficient table. -/
theorem valueIn_toList (c : Circuit F) (w : List F.Elem) (g : Gate) :
    g.valueIn c.coeffs.toList (wireOn w) = c.gateOn w g := rfl

theorem coeffIn_zero {table : List F.Elem} (reserved : reservedCoeffs F <+: table) :
    coeffIn table CoeffId.zero = 0 := by
  obtain ⟨rest, rfl⟩ := reserved
  rfl

/-- Two gates say the same: they have the same value under every assignment, over all coefficients
    that start with the reserved ones, and the same wires take part in them. -/
structure SameMeaning (d g : Gate) : Prop where
  value : ∀ (F : PrimeField) (table : List F.Elem) (w : WireId → F.Elem),
    reservedCoeffs F <+: table → d.valueIn table w = g.valueIn table w
  wires : d.wires = g.wires

theorem SameMeaning.refl (g : Gate) : SameMeaning g g := ⟨fun _ _ _ _ => rfl, rfl⟩

/-! ## The shapes -/

theorem shapeFault?_mul : g.shapeFault? .mul = none ↔ g.commitment = .plain ∧
    g.ql = CoeffId.zero ∧ g.qr = CoeffId.zero ∧ g.qc = CoeffId.zero ∧
      (g.qo = CoeffId.minusOne ∨ g.qo = CoeffId.zero) := by
  rw [shapeFault?]
  grind

theorem shapeFault?_add : g.shapeFault? .add = none ↔ g.commitment = .plain ∧
    g.qm = CoeffId.zero ∧ g.qo = CoeffId.minusOne := by
  rw [shapeFault?]
  grind

theorem shapeFault?_bool : g.shapeFault? .bool = none ↔ g.commitment = .plain ∧
    g.qr = CoeffId.zero ∧ g.qo = CoeffId.zero ∧ g.qc = CoeffId.zero ∧
      (g.qm = CoeffId.zero ∨ g.xb = g.xa) := by
  rw [shapeFault?]
  grind

/-- Of a gate without other operands than its first, only that one takes part. -/
theorem wires_of_square (right : g.qr = CoeffId.zero) (output : g.qo = CoeffId.zero)
    (square : g.qm = CoeffId.zero ∨ g.xb = g.xa) :
    g.wires = if g.usesA then [g.xa] else [] := by
  have noC : g.usesC = false := by simp [usesC, output]
  rcases square with unset | same
  · have noB : g.usesB = false := by simp [usesB, right, unset]
    simp [wires, noB, noC]
  · have both : g.usesB = true → g.usesA = true := by
      simp only [usesA, usesB, right, ne_eq, not_true_eq_false, decide_false, Bool.false_or,
        Bool.or_eq_true]
      exact Or.inr
    cases usesB : g.usesB with
    | false => simp [wires, usesB, noC]
    | true => simp [wires, usesB, noC, both usesB, same]

end Gate

namespace Blueprint

/-- The layouts that leave something out. -/
inductive Special : Blueprint → Prop where
  | mul : Special .mul
  | add : Special .add
  | bool : Special .bool

/-- How a layout reads a gate: a product whose output coefficient is unset has minus one there. -/
def asRead (b : Blueprint) (g : Gate) : Gate :=
  if b = .mul ∧ g.qo = CoeffId.zero then { g with qo := CoeffId.minusOne } else g

/-- A product is unpacked as it was read. -/
theorem recoded_mul (fits : g.shapeFault? .mul = none) : recoded .mul g = asRead .mul g := by
  obtain ⟨plain, left, right, constant, output⟩ := Gate.shapeFault?_mul.1 fits
  obtain ⟨xa, xb, xc, ql, qr, qo, qm, qc, commitment⟩ := g
  dsimp only at plain left right constant output
  subst plain left right constant
  rcases output with rfl | rfl <;> rfl

/-- A sum is unpacked as it was. -/
theorem recoded_add (fits : g.shapeFault? .add = none) : recoded .add g = g := by
  obtain ⟨plain, product, output⟩ := Gate.shapeFault?_add.1 fits
  obtain ⟨xa, xb, xc, ql, qr, qo, qm, qc, commitment⟩ := g
  dsimp only at plain product output
  subst plain product output
  rfl

/-- A bit is unpacked with its first operand in all places. It is the only one that takes part. -/
theorem sameMeaning_bool (fits : g.shapeFault? .bool = none) :
    Gate.SameMeaning (recoded .bool g) g := by
  obtain ⟨-, right, output, constant, square⟩ := Gate.shapeFault?_bool.1 fits
  refine ⟨fun F table w reserved => ?_, ?_⟩
  · have zero := Gate.coeffIn_zero reserved
    have product : Gate.coeffIn table g.qm * w g.xa * w g.xa
        = Gate.coeffIn table g.qm * w g.xa * w g.xb := by
      rcases square with unset | same
      · rw [unset, zero, zero_mul, zero_mul, zero_mul]
      · rw [same]
    show Gate.coeffIn table g.ql * w g.xa + Gate.coeffIn table CoeffId.zero * w g.xa
      + Gate.coeffIn table CoeffId.zero * w g.xa + Gate.coeffIn table g.qm * w g.xa * w g.xa
      + Gate.coeffIn table CoeffId.zero = g.valueIn table w
    rw [Gate.valueIn, right, output, constant, zero, product]
    ring
  · rw [Gate.wires_of_square right output square, Gate.wires_of_square rfl rfl (.inr rfl)]
    rfl

/-- A gate of a special shape survives its layout. -/
theorem sameMeaning_recoded (special : b.Special) (fits : g.shapeFault? b = none) :
    Gate.SameMeaning (b.recoded g) (b.asRead g) := by
  cases special with
  | mul =>
    rw [recoded_mul fits]
    exact .refl _
  | add =>
    rw [recoded_add fits]
    exact .refl _
  | bool => exact sameMeaning_bool fits

/-! ## What the words carry -/

/-- A coefficient of a gate. -/
inductive Slot where
  | left
  | right
  | output
  | product
  | constant
deriving DecidableEq, Repr

/-- The id of a coefficient of a gate. -/
def Slot.of (g : Gate) : Slot → CoeffId
  | .left => g.ql
  | .right => g.qr
  | .output => g.qo
  | .product => g.qm
  | .constant => g.qc

/-- The words of a layout carry a coefficient: gates with the same words have the same one. -/
def Carries (b : Blueprint) (s : Slot) : Prop :=
  ∀ g g' : Gate, g.words b = g'.words b → s.of g = s.of g'

/-- The coefficient that a layout implies where its words carry none. -/
def implied (b : Blueprint) (s : Slot) : CoeffId :=
  if s = .output ∧ b ≠ .bool then CoeffId.minusOne else CoeffId.zero

/-- A gate has something that a layout would lose: it has to do with a commitment, or the words do
    not carry a coefficient that is neither zero nor implied. -/
def Loses (b : Blueprint) (g : Gate) : Prop :=
  g.commitment ≠ .plain ∨
    ∃ s, ¬ b.Carries s ∧ s.of g ≠ CoeffId.zero ∧ s.of g ≠ b.implied s

/-- A gate of a special shape has no coefficient but those that the words carry, and those that the
    layout implies. -/
theorem carried_or_implied (special : b.Special) (fits : g.shapeFault? b = none)
    (s : Slot) : b.Carries s ∨ s.of g = CoeffId.zero ∨ s.of g = b.implied s := by
  cases special with
  | mul =>
    obtain ⟨-, left, right, constant, output⟩ := Gate.shapeFault?_mul.1 fits
    cases s with
    | left => exact .inr (.inl left)
    | right => exact .inr (.inl right)
    | output => exact .inr output.symm
    | product => exact .inl fun g g' same => (List.cons.inj same).1
    | constant => exact .inr (.inl constant)
  | add =>
    obtain ⟨-, product, output⟩ := Gate.shapeFault?_add.1 fits
    have words {g g' : Gate} (same : g.words .add = g'.words .add) :
        g.ql = g'.ql ∧ g.qr = g'.qr ∧ g.qc = g'.qc := by
      simp only [Gate.words, List.cons.injEq] at same
      exact ⟨same.2.2.2.1, same.2.2.2.2.1, same.2.2.2.2.2.1⟩
    cases s with
    | left => exact .inl fun g g' same => (words same).1
    | right => exact .inl fun g g' same => (words same).2.1
    | output => exact .inr (.inr output)
    | product => exact .inr (.inl product)
    | constant => exact .inl fun g g' same => (words same).2.2
  | bool =>
    obtain ⟨-, right, output, constant, -⟩ := Gate.shapeFault?_bool.1 fits
    have words {g g' : Gate} (same : g.words .bool = g'.words .bool) :
        g.ql = g'.ql ∧ g.qm = g'.qm := by
      simp only [Gate.words, List.cons.injEq] at same
      exact ⟨same.2.1, same.2.2.1⟩
    cases s with
    | left => exact .inl fun g g' same => (words same).1
    | right => exact .inr (.inl right)
    | output => exact .inr (.inl output)
    | product => exact .inl fun g g' same => (words same).2
    | constant => exact .inr (.inl constant)

theorem plain_of_shape (special : b.Special) (fits : g.shapeFault? b = none) :
    g.commitment = .plain := by
  cases special with
  | mul => exact (Gate.shapeFault?_mul.1 fits).1
  | add => exact (Gate.shapeFault?_add.1 fits).1
  | bool => exact (Gate.shapeFault?_bool.1 fits).1

theorem not_loses (special : b.Special) (fits : g.shapeFault? b = none) : ¬ b.Loses g := by
  rintro (committed | ⟨s, lost, weight, other⟩)
  · exact committed (plain_of_shape special fits)
  · obtain carried | zero | implied := carried_or_implied special fits s
    · exact lost carried
    · exact weight zero
    · exact other implied

/-! ## Packing in a special layout -/

/-- A gate that is packed in a special layout is unpacked, into any destination, as one that says
    the same and has nothing to do with a commitment. A gate that would lose something is refused,
    and the buffer is left as it is. -/
theorem special_layouts_exact (special : b.Special) (g : Gate) :
    (∀ before after, (b.compressGate g).run before = .ok () after →
      ∃ words d, after = before ++ words ∧ (∀ old, (b.decompressGate words).run old = .ok () d) ∧
        d.commitment = .plain ∧ Gate.SameMeaning d (b.asRead g)) ∧
    (b.Loses g → ∀ before, ∃ fault,
      (b.compressGate g).run before = .error (.shapeMismatch b fault) before) := by
  have kind : b.kind = .gate := by cases special <;> rfl
  constructor
  · intro before after packed
    obtain ⟨-, fits, rfl⟩ := compressGate_ok.1 packed
    have plain : (b.recoded g).commitment = .plain := by cases special <;> rfl
    exact ⟨g.words b, b.recoded g, rfl, fun old => decompressGate_ok.2 ⟨kind, ofWords_words kind⟩,
      plain, sameMeaning_recoded special fits⟩
  · intro loses before
    cases fault : g.shapeFault? b with
    | none => exact absurd loses (not_loses special fault)
    | some fault' =>
      refine ⟨fault', ?_⟩
      rw [compressGate, kind]
      dsimp only
      rw [fault]
      rfl

/-- A product whose output coefficient is unset is packed; one with a linear term is not. -/
theorem special_layouts_product : Special .mul ∧
    (∃ words d, [9] ++ [1, 1, 2, 3] = [9] ++ words ∧
      (∀ old, (decompressGate .mul words).run old = .ok () d) ∧
      Gate.SameMeaning d (Gate.product 1 1 2 3)) ∧
    ∃ fault, (compressGate .mul { Gate.empty with xa := 1, ql := 1 }).run [9]
      = .error (.shapeMismatch .mul fault) [9] := by
  obtain ⟨packs, -⟩ := special_layouts_exact .mul { Gate.product 1 1 2 3 with qo := 0 }
  obtain ⟨words, d, after, unpacked, -, same⟩ := packs [9] [9, 1, 1, 2, 3] rfl
  have lost : ¬ Carries .mul .left := fun carries =>
    absurd (carries Gate.empty { Gate.empty with ql := 1 } rfl) (by decide)
  have loses : Loses .mul { Gate.empty with xa := 1, ql := 1 } :=
    .inr ⟨.left, lost, by decide, by decide⟩
  exact ⟨.mul, ⟨words, d, after, unpacked, same⟩, (special_layouts_exact .mul _).2 loses [9]⟩

end Blueprint

end CircuitWitness
