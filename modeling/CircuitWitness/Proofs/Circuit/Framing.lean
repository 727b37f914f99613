import CircuitWitness.Proofs.Circuit.Normalisation
import CircuitWitness.Proofs.Codec.Truncation

/-!
# Where a circuit ends

Bytes that were accepted are accepted neither in part nor with more bytes after them. If some are
cut off at the end, reading lacks bytes, wherever the cut is: no part of the format is read from
fewer bytes as something else, and no check fails before the bytes run out. With more bytes after
them, the same circuit is read first, and the first of these bytes is reported.

Results:
* `steady_read`: reading a circuit fails for a lack of bytes, or as it does with more of them.
* `ofBytes_cut`: accepted bytes that are cut off are refused for that reason.
* `ofBytes_padded`: more bytes after accepted ones are refused at the first of them.
* `toBytes_framed`: both, of the bytes of every circuit that can come about.
-/

namespace CircuitWitness.Circuit

variable {F : PrimeField} {c : Circuit F}

theorem steady_orBroken {α : Type} (x : Except FormatRule α) : (orBroken x).Steady := by
  cases x with
  | ok x => exact .pure x
  | error rule => exact .throw _

theorem steady_read : (read : Decoder (Circuit F)).Steady :=
  (Decoder.steady_take _).bind fun _ => (Decoder.steady_require _ _).bind fun _ =>
  (Codec.steady_number ..).bind fun _ => (Decoder.steady_require _ _).bind fun _ =>
  (Codec.steady_tagged ..).bind fun _ => PrimeField.steady_header.bind fun _ =>
  PrimeField.steady_elems.bind fun _ => (steady_orBroken _).bind fun _ =>
  (Codec.steady_list (Codec.steady_tagged ..)).bind fun _ =>
  (Codec.steady_list Instruction.steady).bind fun _ =>
  (Codec.steady_list (Codec.steady_number ..)).bind fun _ =>
  (Codec.steady_list Codec.steady_string).bind fun _ =>
  (Codec.steady_list Codec.steady_string).bind fun _ =>
  Codec.steady_size.bind fun _ => Codec.steady_size.bind fun _ =>
  (Codec.steady_list (Codec.steady_list (Codec.steady_number ..))).bind fun _ =>
  (Codec.steady_list LogEntry.steady).bind fun _ =>
  (Codec.steady_map (Codec.steady_number ..) (Codec.steady_number ..)).bind fun _ =>
  (Codec.steady_list LogEntry.steady).bind fun _ => SymbolTable.steady.bind fun _ =>
  (Codec.steady_map (Codec.steady_number ..) Codec.steady_string).bind fun _ =>
  steady_orBroken _

/-- Accepted bytes that are cut off are refused for a lack of bytes, at an offset within what is
    left of them. -/
theorem ofBytes_cut {bytes cut : Bytes} (accepted : ofBytes bytes = .ok c) (front : cut <+: bytes)
    (short : cut ≠ bytes) :
    ∃ offset ≤ cut.length, ofBytes (F := F) cut = .error ⟨offset, .endOfInput⟩ := by
  obtain ⟨left, lacking⟩ := steady_read.run_cut (ofBytes_ok accepted) front short
  have decoded : (codec F).decode cut = .error .endOfInput left := lacking
  refine ⟨cut.length - left.length, Nat.sub_le _ _, ?_⟩
  rw [ofBytes, decoded]

/-- Bytes after accepted ones are refused, at the offset of the first of them. -/
theorem ofBytes_padded {bytes tail : Bytes} (accepted : ofBytes bytes = .ok c) (more : tail ≠ []) :
    ofBytes (F := F) (bytes ++ tail) = .error ⟨bytes.length, .broken .noTrailingBytes⟩ := by
  have decoded : (codec F).decode (bytes ++ tail) = .ok c tail :=
    steady_read.ok (ofBytes_ok accepted) tail
  obtain ⟨first, others, rfl⟩ := List.exists_cons_of_ne_nil more
  have offset : (bytes ++ first :: others).length - (first :: others).length = bytes.length := by
    rw [List.length_append, Nat.add_sub_cancel]
  rw [ofBytes, decoded]
  dsimp only
  rw [offset]

/-- The bytes of a circuit that can come about are refused if they are cut off anywhere, for a lack
    of bytes, and if anything follows them, at the offset where they end. -/
theorem toBytes_framed (h : c.Reachable) (fits : c.Fits) :
    ∃ bytes, c.toBytes = .ok bytes ∧
      (∀ cut, cut <+: bytes → cut ≠ bytes →
        ∃ offset ≤ cut.length, ofBytes (F := F) cut = .error ⟨offset, .endOfInput⟩) ∧
      ∀ tail ≠ [], ofBytes (F := F) (bytes ++ tail)
        = .error ⟨bytes.length, .broken .noTrailingBytes⟩ := by
  obtain ⟨bytes, written, accepted⟩ := ofBytes_toBytes h fits
  exact ⟨bytes, written, fun cut front short => ofBytes_cut accepted front short,
    fun tail more => ofBytes_padded accepted more⟩

theorem twoSquaresCircuit_framed : ∃ bytes, twoSquaresCircuit.toBytes = .ok bytes ∧
    (∀ cut, cut <+: bytes → cut ≠ bytes →
      ∃ offset ≤ cut.length, ofBytes (F := .tiny) cut = .error ⟨offset, .endOfInput⟩) ∧
    ofBytes (F := .tiny) (bytes ++ [0, 255])
      = .error ⟨bytes.length, .broken .noTrailingBytes⟩ := by
  have fits : twoSquaresCircuit.Fits := by decide +kernel
  obtain ⟨bytes, written, torn, padded⟩ := toBytes_framed (.edits (.empty .r1cs) _) fits
  exact ⟨bytes, written, torn, padded _ (by decide)⟩

end CircuitWitness.Circuit
