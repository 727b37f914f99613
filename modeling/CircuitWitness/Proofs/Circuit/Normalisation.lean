import CircuitWitness.Proofs.Circuit.Persistence
import CircuitWitness.Proofs.Codec.Canonical

/-!
# Reading normalises

A circuit has more than one written form that is accepted. The modulus may have zero bytes after its
digits, and the entries of the two maps may come in any order; nothing else is free. Writing what
was read gives the form with no such zero bytes and with the entries by increasing key, which is
not longer and is read as the same circuit. When reading fails, the offset that is reported is the
number of bytes that were consumed.

Results:
* `read_ok`: what is accepted for a circuit.
* `consumes_read`: reading takes bytes from the front, also when it fails.
* `ofBytes_normalises`: what was read is written in no more bytes, from which it is read again.
-/

namespace CircuitWitness.Circuit

variable {F : PrimeField} {c : Circuit F}

/-- The items of a circuit, with zero bytes after the digits of the modulus, and with the entries of
    the two maps in a given order. -/
def spelling (c : Circuit F) (zeros : ℕ) (described : List (UInt32 × UInt32))
    (named : List (HintId × String)) : List Piece :=
  [Piece.bytes magic]
    ++ Codec.u32.pieces version
    ++ CircuitKind.codec.pieces c.kind
    ++ (Codec.list Codec.u8).pieces
        (littleEndian F.byteLen F.modulus ++ List.replicate zeros 0)
    ++ F.elemsCodec.pieces c.coeffs.toList
    ++ (Codec.list Blueprint.codec).pieces c.blueprints
    ++ (Codec.list Instruction.codec).pieces c.instructions
    ++ (Codec.list .u32).pieces c.callData
    ++ (Codec.list .string).pieces c.publicNames
    ++ (Codec.list .string).pieces c.secretNames
    ++ Codec.size.pieces c.internalCount
    ++ Codec.size.pieces c.constraintCount
    ++ (Codec.list (.list .u32)).pieces c.levels.schedule
    ++ (Codec.list LogEntry.codec).pieces c.descriptions
    ++ (Codec.list (.pair .u32 .u32)).pieces described
    ++ (Codec.list LogEntry.codec).pieces c.logs
    ++ SymbolTable.codec.pieces c.symbols
    ++ (Codec.list (.pair .u32 .string)).pieces named

/-- The items that are written are those without zero bytes and with the entries by key. -/
theorem pieces_eq_spelling (c : Circuit F) :
    c.pieces = c.spelling 0 c.descriptionOf.entries c.hintNames.entries := by
  delta spelling
  rw [List.replicate_zero, List.append_nil]
  rfl

theorem consumes_orBroken {α : Type} (x : Except FormatRule α) : (orBroken x).Consumes := by
  cases x with
  | ok x => exact .pure x
  | error rule => exact .throw _

/-- Reading a circuit takes bytes from the front, also when it fails. -/
theorem consumes_read : (read : Decoder (Circuit F)).Consumes :=
  (Decoder.consumes_take _).bind fun _ => (Decoder.consumes_require _ _).bind fun _ =>
  Codec.canonical_u32.consumes.bind fun _ => (Decoder.consumes_require _ _).bind fun _ =>
  CircuitKind.canonical.consumes.bind fun _ => PrimeField.consumes_header.bind fun _ =>
  PrimeField.canonical_elems.consumes.bind fun _ => (consumes_orBroken _).bind fun _ =>
  Blueprint.canonical.list.consumes.bind fun _ => Instruction.canonical.list.consumes.bind fun _ =>
  Codec.canonical_u32.list.consumes.bind fun _ => Codec.canonical_string.list.consumes.bind fun _ =>
  Codec.canonical_string.list.consumes.bind fun _ => Codec.canonical_size.consumes.bind fun _ =>
  Codec.canonical_size.consumes.bind fun _ => Codec.canonical_u32.list.list.consumes.bind fun _ =>
  LogEntry.canonical.list.consumes.bind fun _ =>
  (Codec.consumes_map Codec.canonical_u32 Codec.canonical_u32).bind fun _ =>
  LogEntry.canonical.list.consumes.bind fun _ => SymbolTable.canonical.consumes.bind fun _ =>
  (Codec.consumes_map Codec.canonical_u32 Codec.canonical_string).bind fun _ =>
  consumes_orBroken _

theorem orBroken_eq_ok {α : Type} {x : Except FormatRule α} {bytes rest : Bytes} {a : α}
    (h : (orBroken x).run bytes = .ok a rest) : x = .ok a ∧ rest = bytes := by
  cases x with
  | ok a' =>
    obtain ⟨rfl, rfl⟩ := pure_ok.1 h
    exact ⟨rfl, rfl⟩
  | error rule => cases h

theorem orBroken_bind_ok {α β : Type} {x : Except FormatRule α} {next : α → Decoder β}
    {bytes rest : Bytes} {b : β} (h : (orBroken x >>= next).run bytes = .ok b rest) :
    ∃ a, x = .ok a ∧ (next a).run bytes = .ok b rest := by
  obtain ⟨a, after, first, tail⟩ := bind_ok.1 h
  obtain ⟨same, rfl⟩ := orBroken_eq_ok first
  exact ⟨a, same, tail⟩

theorem checked_levels {schedule : List (List UInt32)} {c' : Circuit F}
    (h : c.checked schedule = .ok c') :
    c'.Checked ∧ ∃ levels, levels.schedule = schedule ∧ c' = { c with levels } := by
  refine ⟨(checked_ok h).1, ?_⟩
  obtain ⟨_, -, rest⟩ := except_bind_ok.1 h
  split at rest
  · next levels replayed =>
    exact ⟨levels, (replay_ok replayed).1, (Except.ok.inj rest).symm⟩
  · cases rest

/-- The items of a circuit have written forms, and the entries are those of its maps. -/
structure Spelled (c : Circuit F) (zeros : ℕ) (described : List (UInt32 × UInt32))
    (named : List (HintId × String)) : Prop where
  sections : c.Sections
  digits : Piece.Whole ((Codec.list Codec.u8).pieces
    (littleEndian F.byteLen F.modulus ++ List.replicate zeros 0))
  describedPerm : described.Perm c.descriptionOf.entries
  describedWhole : Piece.Whole ((Codec.list (.pair .u32 .u32)).pieces described)
  namedPerm : named.Perm c.hintNames.entries
  namedWhole : Piece.Whole ((Codec.list (.pair .u32 .string)).pieces named)

/-- The bytes of a circuit, part by part. -/
theorem Spelled.join {zeros : ℕ} {described : List (UInt32 × UInt32)}
    {named : List (HintId × String)} (h : c.Spelled zeros described named) (rest : Bytes) :
    Piece.join (c.spelling zeros described named) ++ rest
      = Piece.join [.bytes magic] ++ (Piece.join (Codec.u32.pieces version)
        ++ (Piece.join (CircuitKind.codec.pieces c.kind)
        ++ (Piece.join ((Codec.list Codec.u8).pieces
          (littleEndian F.byteLen F.modulus ++ List.replicate zeros 0))
        ++ (Piece.join (F.elemsCodec.pieces c.coeffs.toList)
        ++ (Piece.join ((Codec.list Blueprint.codec).pieces c.blueprints)
        ++ (Piece.join ((Codec.list Instruction.codec).pieces c.instructions)
        ++ (Piece.join ((Codec.list .u32).pieces c.callData)
        ++ (Piece.join ((Codec.list .string).pieces c.publicNames)
        ++ (Piece.join ((Codec.list .string).pieces c.secretNames)
        ++ (Piece.join (Codec.size.pieces c.internalCount)
        ++ (Piece.join (Codec.size.pieces c.constraintCount)
        ++ (Piece.join ((Codec.list (.list .u32)).pieces c.levels.schedule)
        ++ (Piece.join ((Codec.list LogEntry.codec).pieces c.descriptions)
        ++ (Piece.join ((Codec.list (.pair .u32 .u32)).pieces described)
        ++ (Piece.join ((Codec.list LogEntry.codec).pieces c.logs)
        ++ (Piece.join (SymbolTable.codec.pieces c.symbols)
        ++ (Piece.join ((Codec.list (.pair .u32 .string)).pieces named)
        ++ rest))))))))))))))))) := by
  have parts := h.sections
  delta spelling
  simp only [List.append_assoc]
  exact Piece.join_next (.one magic) <| Piece.join_next (Codec.carries_u32 version).whole <|
    Piece.join_next c.kind.carries.whole <| Piece.join_next h.digits <|
    Piece.join_next parts.coeffs.whole <| Piece.join_next parts.blueprints.whole <|
    Piece.join_next parts.instructions.whole <| Piece.join_next parts.callData.whole <|
    Piece.join_next parts.publicNames.whole <| Piece.join_next parts.secretNames.whole <|
    Piece.join_next parts.internalCount.whole <| Piece.join_next parts.constraintCount.whole <|
    Piece.join_next parts.schedule.whole <| Piece.join_next parts.descriptions.whole <|
    Piece.join_next h.describedWhole <| Piece.join_next parts.logs.whole <|
    Piece.join_next parts.symbols.whole rfl

theorem Sections.spelled (h : c.Sections) :
    c.Spelled 0 c.descriptionOf.entries c.hintNames.entries where
  sections := h
  digits := by
    rw [List.replicate_zero, List.append_nil]
    exact h.header.whole
  describedPerm := .refl _
  describedWhole := h.descriptionOf.whole
  namedPerm := .refl _
  namedWhole := h.hintNames.whole

/-- What is written is not longer than what was accepted. -/
theorem Spelled.length_le {zeros : ℕ} {described : List (UInt32 × UInt32)}
    {named : List (HintId × String)} (h : c.Spelled zeros described named) :
    (Piece.join c.pieces).length ≤ (Piece.join (c.spelling zeros described named)).length := by
  have written := congrArg List.length (h.sections.spelled.join [])
  have accepted := congrArg List.length (h.join [])
  rw [← pieces_eq_spelling] at written
  have digits := Codec.length_join_bytes (Codec.length_lt h.digits)
  have digits' := Codec.length_join_bytes (Codec.length_lt h.sections.spelled.digits)
  have described := Codec.length_join_list h.describedPerm h.describedWhole
  have named := Codec.length_join_list h.namedPerm h.namedWhole
  simp only [List.length_append, List.length_replicate, List.length_nil] at *
  omega

/-- What is accepted for a circuit are its items, but for zero bytes and the order of entries. -/
theorem read_ok {bytes rest : Bytes} (ran : read.run bytes = .ok c rest) :
    c.Checked ∧ ∃ zeros described named, c.Spelled zeros described named ∧
      bytes = Piece.join (c.spelling zeros described named) ++ rest := by
  unfold read at ran
  obtain ⟨start, s₁, taken, ran⟩ := bind_ok.1 ran
  obtain ⟨-, e₁⟩ := Decoder.take_ok taken
  obtain ⟨isMagic, ran⟩ := Decoder.require_bind_ok ran
  obtain rfl : start = magic := of_decide_eq_true isMagic
  obtain ⟨v, s₂, version', e₂, ran⟩ := Codec.canonical_u32.bind_ok ran
  obtain ⟨isVersion, ran⟩ := Decoder.require_bind_ok ran
  obtain rfl : v = version := of_decide_eq_true isVersion
  obtain ⟨kind, s₃, kindCarried, e₃, ran⟩ := CircuitKind.canonical.bind_ok ran
  obtain ⟨_, s₄, header, ran⟩ := bind_ok.1 ran
  obtain ⟨header, zeros, digits, e₄⟩ := PrimeField.read_header_ok header
  obtain ⟨elements, s₅, coeffs, e₅, ran⟩ := PrimeField.canonical_elems.bind_ok ran
  obtain ⟨table, made, ran⟩ := orBroken_bind_ok ran
  have same := CoeffTable.toList_ofList (except_mapError_ok.1 made)
  obtain ⟨blueprints, s₆, hblueprints, e₆, ran⟩ := Blueprint.canonical.list.bind_ok ran
  obtain ⟨instructions, s₇, hinstructions, e₇, ran⟩ := Instruction.canonical.list.bind_ok ran
  obtain ⟨callData, s₈, hcallData, e₈, ran⟩ := Codec.canonical_u32.list.bind_ok ran
  obtain ⟨publicNames, s₉, hpublicNames, e₉, ran⟩ := Codec.canonical_string.list.bind_ok ran
  obtain ⟨secretNames, s₁₀, hsecretNames, e₁₀, ran⟩ := Codec.canonical_string.list.bind_ok ran
  obtain ⟨internalCount, s₁₁, hinternalCount, e₁₁, ran⟩ := Codec.canonical_size.bind_ok ran
  obtain ⟨constraintCount, s₁₂, hconstraintCount, e₁₂, ran⟩ := Codec.canonical_size.bind_ok ran
  obtain ⟨schedule, s₁₃, hschedule, e₁₃, ran⟩ := Codec.canonical_u32.list.list.bind_ok ran
  obtain ⟨descriptions, s₁₄, hdescriptions, e₁₄, ran⟩ := LogEntry.canonical.list.bind_ok ran
  obtain ⟨descriptionOf, s₁₅, mapped, ran⟩ := bind_ok.1 ran
  obtain ⟨hdescriptionOf, described, describedPerm, hdescribed, e₁₅⟩ :=
    Codec.read_map_ok Codec.canonical_u32 Codec.canonical_u32 mapped
  obtain ⟨logs, s₁₆, hlogs, e₁₆, ran⟩ := LogEntry.canonical.list.bind_ok ran
  obtain ⟨symbols, s₁₇, hsymbols, e₁₇, ran⟩ := SymbolTable.canonical.bind_ok ran
  obtain ⟨hintNames, s₁₈, mapped, ran⟩ := bind_ok.1 ran
  obtain ⟨hhintNames, named, namedPerm, hnamed, e₁₈⟩ :=
    Codec.read_map_ok Codec.canonical_u32 Codec.canonical_string mapped
  obtain ⟨checked, last⟩ := orBroken_eq_ok ran
  obtain ⟨acceptable, levels, rfl, rfl⟩ := checked_levels checked
  have tableCarried : F.elemsCodec.Carries table.toList := by rwa [same]
  refine ⟨acceptable, zeros, described, named, ?_⟩
  suffices spelled : Spelled _ zeros described named by
    refine ⟨spelled, ?_⟩
    rw [spelled.join, Piece.join_one, e₁, e₂, e₃, e₄, e₅, e₆, e₇, e₈, e₉, e₁₀, e₁₁, e₁₂, e₁₃, e₁₄,
      e₁₅, e₁₆, e₁₇, e₁₈, last, same]
  exact ⟨⟨header, tableCarried, hblueprints, hinstructions, hcallData, hpublicNames, hsecretNames,
    hinternalCount, hconstraintCount, hschedule, hdescriptions, hdescriptionOf, hlogs, hsymbols,
    hhintNames⟩, digits.whole, describedPerm, hdescribed.whole, namedPerm, hnamed.whole⟩

theorem ofBytes_ok {b : Bytes} (h : ofBytes b = .ok c) : read.run b = .ok c [] := by
  unfold ofBytes at h
  split at h
  · next c' decoded =>
    obtain rfl := Except.ok.inj h
    exact decoded
  · cases h
  · cases h

/-- The offset of a failure is the number of bytes that were consumed. -/
theorem ofBytes_error {b : Bytes} {e : ReadError} (h : ofBytes (F := F) b = .error e) :
    ∃ consumed, b = consumed ++ stateAfter ((codec F).decode b) ∧ e.offset = consumed.length := by
  obtain ⟨consumed, split⟩ := consumes_read (F := F) b
  have length := congrArg List.length split
  rw [List.length_append] at length
  refine ⟨consumed, split.symm, ?_⟩
  have after : stateAfter (read.run b) = stateAfter ((codec F).decode b) := rfl
  rw [after] at length
  unfold ofBytes at h
  split at h
  · cases h
  · next left decoded =>
    obtain rfl := Except.error.inj h
    rw [decoded, stateAfter_ok] at length
    exact Nat.sub_eq_of_eq_add length.symm
  · next cause left decoded =>
    obtain rfl := Except.error.inj h
    rw [decoded, stateAfter_error] at length
    exact Nat.sub_eq_of_eq_add length.symm

/-- A circuit whose parts are carried is written as its items, from which it is read. -/
theorem Sections.toBytes_ok (h : c.Sections) (checked : c.Checked) :
    c.toBytes = .ok (Piece.join c.pieces) ∧ ofBytes (Piece.join c.pieces) = .ok c := by
  have carried : (codec F).Carries c := ⟨h.whole, h.run_read checked⟩
  constructor
  · rw [toBytes, Codec.encode_of_carries carried]
    rfl
  · have decoded : (codec F).decode (Piece.join c.pieces) = .ok c [] := by
      have read := carried.read []
      rwa [List.append_nil] at read
    rw [ofBytes, decoded]

/-- Whatever is read as a circuit is written again in no more bytes, from which the same circuit is
    read; only zero bytes after the modulus and the order of the entries of maps are lost. Otherwise
    the offset that is reported is the number of bytes that were consumed. -/
theorem ofBytes_normalises (b : Bytes) :
    (∀ c : Circuit F, ofBytes b = .ok c →
      ∃ bytes, c.toBytes = .ok bytes ∧ bytes.length ≤ b.length ∧ ofBytes bytes = .ok c ∧
        bytes = Piece.join (c.spelling 0 c.descriptionOf.entries c.hintNames.entries) ∧
        ∃ zeros described named, described.Perm c.descriptionOf.entries ∧
          named.Perm c.hintNames.entries ∧
          b = Piece.join (c.spelling zeros described named)) ∧
    ∀ e : ReadError, ofBytes (F := F) b = .error e → e.offset ≤ b.length ∧
      ∃ consumed, b = consumed ++ stateAfter ((codec F).decode b) ∧
        e.offset = consumed.length := by
  constructor
  · intro c accepted
    obtain ⟨checked, zeros, described, named, spelled, split⟩ := read_ok (ofBytes_ok accepted)
    rw [List.append_nil] at split
    obtain ⟨written, read⟩ := spelled.sections.toBytes_ok checked
    refine ⟨_, written, ?_, read, by rw [pieces_eq_spelling], zeros, described, named,
      spelled.describedPerm, spelled.namedPerm, split⟩
    rw [split]
    exact spelled.length_le
  · intro e refused
    obtain ⟨consumed, split, offset⟩ := ofBytes_error refused
    refine ⟨?_, consumed, split, offset⟩
    rw [offset, split, List.length_append]
    omega

/-- The constraints `x⋅x = y` and `y⋅y = z`, with descriptions. -/
def twoSquaresCircuit : Circuit .tiny :=
  [.secretInput "x", .internal, .internal, .blueprint .genericR1C,
    .r1c ⟨[⟨1, 1⟩], [⟨1, 1⟩], [⟨1, 2⟩]⟩ 0, .r1c ⟨[⟨1, 2⟩], [⟨1, 2⟩], [⟨1, 3⟩]⟩ 0,
    .describe 0 ⟨"first", "", [], []⟩, .describe 1 ⟨"second", "", [], []⟩].foldl Edit.apply
      (.empty .tiny .r1cs)

/-- A written form with two zero bytes too many, and with the descriptions by decreasing number. -/
def paddedBytes : Bytes := Piece.join (twoSquaresCircuit.spelling 2 [(1, 1), (0, 0)] [])

theorem ofBytes_paddedBytes : (∃ (c : Circuit .tiny) (bytes : Bytes),
    ofBytes paddedBytes = .ok c ∧ c.toBytes = .ok bytes ∧ bytes.length ≤ paddedBytes.length ∧
      ofBytes bytes = .ok c) ∧
    ofBytes (F := .tiny) (magic ++ [1, 0]) = .error ⟨4, .endOfInput⟩ ∧
      ∃ consumed : Bytes, magic ++ [1, 0] = consumed ++ [1, 0] ∧ consumed.length = 4 := by
  constructor
  · have accepted : (ofBytes paddedBytes : Except _ (Circuit .tiny)).toOption.isSome := by
      decide +kernel
    obtain ⟨c, found⟩ := Option.isSome_iff_exists.1 accepted
    have read := except_toOption_eq_some.1 found
    obtain ⟨bytes, written, shorter, again, -⟩ := (ofBytes_normalises paddedBytes).1 c read
    exact ⟨c, bytes, read, written, shorter, again⟩
  · have refused : ofBytes (F := .tiny) (magic ++ [1, 0]) = .error ⟨4, .endOfInput⟩ := rfl
    obtain ⟨-, consumed, split, offset⟩ := (ofBytes_normalises _).2 _ refused
    exact ⟨refused, consumed, split, offset.symm⟩

end CircuitWitness.Circuit
