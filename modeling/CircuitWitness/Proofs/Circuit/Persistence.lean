import CircuitWitness.Proofs.Circuit.Validity
import CircuitWitness.Proofs.Codec.Sections

/-!
# Circuits survive being written

A circuit that can come about is written completely if its lengths and counts fit into words, and
what is written is read back as the same circuit. Levels of wires are not written. Reading finds
them again, since they are those that replaying the schedule notes.

Results:
* `Checked.checked_withLevels`: an acceptable circuit is restored from its schedule.
* `Sections.run_read`: the parts of an acceptable circuit are read one after the other.
* `ofBytes_toBytes`: every circuit that can come about is read back from its bytes.
-/

namespace CircuitWitness.Circuit

variable {F : PrimeField} {c : Circuit F}

/-- The lengths and counts of a circuit fit into words. -/
structure Fits (c : Circuit F) : Prop where
  modulus : F.byteLen < wordRange
  coeffs : c.coeffs.size < wordRange
  blueprints : c.blueprints.length < wordRange
  instructions : c.instructions.length < wordRange
  callData : c.callData.length < wordRange
  publicNames : c.publicNames.length < wordRange ∧ ∀ s ∈ c.publicNames, TextFits s
  secretNames : c.secretNames.length < wordRange ∧ ∀ s ∈ c.secretNames, TextFits s
  internalCount : c.internalCount < wordRange
  constraintCount : c.constraintCount < wordRange
  schedule : c.levels.schedule.length < wordRange ∧
    ∀ l ∈ c.levels.schedule, l.length < wordRange
  descriptions : c.descriptions.length < wordRange ∧ ∀ e ∈ c.descriptions, e.Fits
  descriptionOf : c.descriptionOf.size < wordRange
  logs : c.logs.length < wordRange ∧ ∀ e ∈ c.logs, e.Fits
  symbols : c.symbols.Fits
  hintNames : c.hintNames.size < wordRange ∧ ∀ e ∈ c.hintNames.entries, TextFits e.2

instance : DecidablePred (@Fits F) := fun c =>
  decidable_of_iff ((F.byteLen < wordRange ∧ c.coeffs.size < wordRange ∧
        c.blueprints.length < wordRange ∧ c.instructions.length < wordRange ∧
        c.callData.length < wordRange) ∧
      (c.publicNames.length < wordRange ∧ ∀ s ∈ c.publicNames, TextFits s) ∧
      (c.secretNames.length < wordRange ∧ ∀ s ∈ c.secretNames, TextFits s) ∧
      (c.internalCount < wordRange ∧ c.constraintCount < wordRange) ∧
      (c.levels.schedule.length < wordRange ∧ ∀ l ∈ c.levels.schedule, l.length < wordRange) ∧
      (c.descriptions.length < wordRange ∧ ∀ e ∈ c.descriptions, e.Fits) ∧
      c.descriptionOf.size < wordRange ∧ (c.logs.length < wordRange ∧ ∀ e ∈ c.logs, e.Fits) ∧
      c.symbols.Fits ∧
      (c.hintNames.size < wordRange ∧ ∀ e ∈ c.hintNames.entries, TextFits e.2))
    ⟨fun ⟨⟨modulus, coeffs, blueprints, instructions, callData⟩, publicNames, secretNames,
        ⟨internalCount, constraintCount⟩, schedule, descriptions, descriptionOf, logs, symbols,
        hintNames⟩ =>
        ⟨modulus, coeffs, blueprints, instructions, callData, publicNames, secretNames,
          internalCount, constraintCount, schedule, descriptions, descriptionOf, logs, symbols,
          hintNames⟩,
      fun h => ⟨⟨h.modulus, h.coeffs, h.blueprints, h.instructions, h.callData⟩, h.publicNames,
        h.secretNames, ⟨h.internalCount, h.constraintCount⟩, h.schedule, h.descriptions,
        h.descriptionOf, h.logs, h.symbols, h.hintNames⟩⟩

/-- An acceptable circuit is restored from its schedule, whatever its levels were before. -/
theorem Checked.checked_withLevels (h : c.Checked) (levels : Levels) :
    checked { c with levels } c.levels.schedule = .ok c := by
  have replayed : replay { c with levels } c.levels.schedule = .ok c.levels := h.replayed
  refine except_bind_ok.2 ⟨(), (validate_withLevels c levels).trans h.valid, ?_⟩
  rw [replayed]
  rfl

theorem orBroken_bind {α β : Type} {x : Except FormatRule α} {a : α} (h : x = .ok a)
    (next : α → Decoder β) (bytes : Bytes) :
    (orBroken x >>= next).run bytes = (next a).run bytes := by
  rw [h]
  rfl

/-- The parts of a circuit are carried. -/
structure Sections (c : Circuit F) : Prop where
  header : F.headerCodec.Carries ()
  coeffs : F.elemsCodec.Carries c.coeffs.toList
  blueprints : (Codec.list Blueprint.codec).Carries c.blueprints
  instructions : (Codec.list Instruction.codec).Carries c.instructions
  callData : (Codec.list .u32).Carries c.callData
  publicNames : (Codec.list .string).Carries c.publicNames
  secretNames : (Codec.list .string).Carries c.secretNames
  internalCount : Codec.size.Carries c.internalCount
  constraintCount : Codec.size.Carries c.constraintCount
  schedule : (Codec.list (.list .u32)).Carries c.levels.schedule
  descriptions : (Codec.list LogEntry.codec).Carries c.descriptions
  descriptionOf : (Codec.map .u32 .u32).Carries c.descriptionOf
  logs : (Codec.list LogEntry.codec).Carries c.logs
  symbols : SymbolTable.codec.Carries c.symbols
  hintNames : (Codec.map .u32 .string).Carries c.hintNames

theorem Fits.sections (fits : c.Fits) (located : c.symbols.wellFormed) : c.Sections where
  header := PrimeField.carries_header fits.modulus
  coeffs := PrimeField.carries_elems fits.coeffs
  blueprints := Codec.carries_list fits.blueprints fun b _ => b.carries
  instructions := Codec.carries_list fits.instructions fun i _ => i.carries
  callData := Codec.carries_list fits.callData fun x _ => Codec.carries_u32 x
  publicNames := Codec.carries_list fits.publicNames.1 fun s hs =>
    Codec.carries_string (fits.publicNames.2 s hs)
  secretNames := Codec.carries_list fits.secretNames.1 fun s hs =>
    Codec.carries_string (fits.secretNames.2 s hs)
  internalCount := Codec.carries_size fits.internalCount
  constraintCount := Codec.carries_size fits.constraintCount
  schedule := Codec.carries_list fits.schedule.1 fun l hl =>
    Codec.carries_list (fits.schedule.2 l hl) fun x _ => Codec.carries_u32 x
  descriptions := Codec.carries_list fits.descriptions.1 fun e he =>
    LogEntry.carries (fits.descriptions.2 e he)
  descriptionOf := Codec.carries_map fits.descriptionOf (fun e _ => Codec.carries_u32 e.1)
    fun e _ => Codec.carries_u32 e.2
  logs := Codec.carries_list fits.logs.1 fun e he => LogEntry.carries (fits.logs.2 e he)
  symbols := SymbolTable.carries fits.symbols located
  hintNames := Codec.carries_map fits.hintNames.1 (fun e _ => Codec.carries_u32 e.1)
    fun e he => Codec.carries_string (fits.hintNames.2 e he)

theorem Sections.whole (h : c.Sections) : Piece.Whole c.pieces :=
  (((((((((((((((((Piece.Whole.one magic).append (Codec.carries_u32 version).whole).append
    c.kind.carries.whole).append h.header.whole).append h.coeffs.whole).append
    h.blueprints.whole).append h.instructions.whole).append h.callData.whole).append
    h.publicNames.whole).append h.secretNames.whole).append h.internalCount.whole).append
    h.constraintCount.whole).append h.schedule.whole).append h.descriptions.whole).append
    h.descriptionOf.whole).append h.logs.whole).append h.symbols.whole).append h.hintNames.whole

/-- Reading the parts one after the other gives the circuit, if it is acceptable. -/
theorem Sections.run_read (h : c.Sections) (checked : c.Checked) (rest : Bytes) :
    read.run (Piece.join c.pieces ++ rest) = .ok c rest := by
  have table : (CoeffTable.ofList c.coeffs.toList).mapError (fun _ => FormatRule.coefficientTable)
      = .ok c.coeffs := by
    rw [c.coeffs.ofList_toList]
    rfl
  unfold pieces read
  simp only [List.append_assoc, List.cons_append, List.nil_append]
  rw [Decoder.take_bind, Decoder.require_bind .magic (decide_eq_true rfl),
    (Codec.carries_u32 version).bind, Decoder.require_bind .version (decide_eq_true rfl),
    c.kind.carries.bind, h.header.bind, h.coeffs.bind, orBroken_bind table, h.blueprints.bind,
    h.instructions.bind, h.callData.bind, h.publicNames.bind, h.secretNames.bind,
    h.internalCount.bind, h.constraintCount.bind, h.schedule.bind, h.descriptions.bind,
    h.descriptionOf.bind, h.logs.bind, h.symbols.bind, h.hintNames.bind_last]
  exact congrArg (fun x => (orBroken x).run rest) (checked.checked_withLevels .empty)

/-- Every circuit that can come about is read back from its bytes, if its lengths and counts fit
    into words. -/
theorem ofBytes_toBytes (h : c.Reachable) (fits : c.Fits) :
    ∃ bytes, c.toBytes = .ok bytes ∧ ofBytes bytes = .ok c := by
  have checked : c.Checked := by
    exact h.checked (Nat.le_of_lt fits.instructions) (Nat.lt_trans fits.callData (by decide))
  have sections := fits.sections h.located
  have carried : (codec F).Carries c := ⟨sections.whole, sections.run_read checked⟩
  refine ⟨Piece.join c.pieces, ?_, ?_⟩
  · rw [toBytes, Codec.encode_of_carries carried]
    rfl
  · have decoded : (codec F).decode (Piece.join c.pieces) = .ok c [] := by
      have read := carried.read []
      rwa [List.append_nil] at read
    rw [ofBytes, decoded]

/-- The constraint `x⋅7x = y`, put one level higher than it has to be, with a description and a log,
    and a hint for the last bit of `y`. -/
def describedCircuit : Circuit .tiny :=
  [.secretInput "χ", .internal, .internal, .coeff (.ofNat 7), .blueprint .genericR1C,
    .blueprint .genericHint, .location "square" "main.rs" 7,
    .r1c ⟨[⟨1, 1⟩], [⟨5, 1⟩], [⟨1, 2⟩]⟩ 0, .levels [[], [0]],
    .describe 0 ⟨"square", "χ is \x7b\x7d", [[⟨1, 1⟩]], [0]⟩, .log ⟨"", "done", [], []⟩,
    .hint ⟨hintId "bits", [[⟨1, 2⟩]], [3]⟩ "bits" 1].foldl Edit.apply (.empty .tiny .r1cs)

theorem ofBytes_describedCircuit : ∃ bytes, describedCircuit.toBytes = .ok bytes ∧
    ofBytes bytes = .ok describedCircuit := by
  have fits : describedCircuit.Fits := by decide +kernel
  exact ofBytes_toBytes (.edits (.empty .r1cs) _) fits

end CircuitWitness.Circuit
