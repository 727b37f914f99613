import CircuitWitness.Proofs.Codec.Exactness
import Mathlib.Data.Nat.Digits.Defs

/-!
# Canonical field elements

An element is written in the digits of its representative to base 256, as many as the modulus needs.
Every other string of that many bytes stands for a number that is not below the modulus, and is
refused. So an element has one written form, and a list of elements has one, too. It has none if
there are too many elements for their number to be a word; such a list is not read either.

Results:
* `encode_elem`: an element is written in as many bytes as the modulus needs, or not at all.
* `decode_elem`: what is read from that many bytes, whatever they are.
* `encode_elems_iff`: which lists have a written form.
* `elements_canonical`: one form for each element, and for each list of elements.
-/

namespace CircuitWitness

/-- The number that bytes stand for is the one with these digits. -/
theorem ofLittleEndian_eq_ofDigits (bs : Bytes) :
    ofLittleEndian bs = Nat.ofDigits 256 (bs.map UInt8.toNat) := by
  induction bs with
  | nil => rfl
  | cons b bs ih => rw [ofLittleEndian, ih, List.map_cons, Nat.ofDigits_cons]

theorem emit_one (room : Option ℕ) (bs : Bytes) :
    emit room [.bytes bs] =
      if fits room bs.length then (bs, none) else ([], some .bufferFull) := by
  simp only [emit, List.append_nil]

theorem Decoder.run_take_of_lt {n : ℕ} {bytes : Bytes} (short : bytes.length < n) :
    (Decoder.take n).run bytes = .error .endOfInput bytes := by
  simp only [EStateM.run, Decoder.take, splitExactly_eq, if_neg (Nat.not_le.2 short)]

namespace PrimeField

variable {F : PrimeField}

/-! ## One element -/

/-- The digits of an element stand for its representative. -/
theorem ofLittleEndian_val (x : F.Elem) :
    ofLittleEndian (littleEndian F.byteLen x.val) = x.val := by
  rw [ofLittleEndian_littleEndian, Nat.mod_eq_of_lt (Nat.lt_trans x.val_lt F.modulus_lt)]

theorem encode_elem (room : Option ℕ) (x : F.Elem) :
    F.elemCodec.encode room x =
      if fits room F.byteLen then (littleEndian F.byteLen x.val, none)
      else ([], some .bufferFull) := by
  rw [Codec.encode, elemCodec, emit_one, length_littleEndian]

/-- The number that the first bytes stand for is read if it is below the modulus. If it is not, the
    bytes are gone nevertheless. -/
theorem decode_elem {front : Bytes} (length : front.length = F.byteLen) (rest : Bytes) :
    F.elemCodec.decode (front ++ rest) =
      if h : ofLittleEndian front < F.modulus then .ok ⟨ofLittleEndian front, h⟩ rest
      else .error (.broken .canonicalElement) rest := by
  have taken : (Decoder.take F.byteLen).run (front ++ rest) = .ok front rest := by
    rw [← length, Decoder.run_take]
  simp only [Codec.decode, elemCodec, EStateM.run_bind, taken, Elem.ofCanonical?]
  by_cases below : ofLittleEndian front < F.modulus
  · simp only [dif_pos below]
    rfl
  · simp only [dif_neg below]
    rfl

theorem decode_elem_of_short {bytes : Bytes} (short : bytes.length < F.byteLen) :
    F.elemCodec.decode bytes = .error .endOfInput bytes := by
  simp only [Codec.decode, elemCodec, EStateM.run_bind, Decoder.run_take_of_lt short]

/-! ## Lists of elements -/

/-- A list has a written form if the number of its elements is a word. -/
theorem encode_elems_iff {xs : List F.Elem} :
    (∃ written, F.elemsCodec.encode none xs = (written, none)) ↔ xs.length < wordRange := by
  constructor
  · rintro ⟨written, wrote⟩
    exact Codec.length_lt (Codec.encode_eq.1 wrote).1
  · intro small
    exact ⟨_, Codec.encode_of_carries (carries_elems small)⟩

/-- What was written for a list is read back, whatever follows it. -/
theorem decode_elems {xs : List F.Elem} {written : Bytes}
    (wrote : F.elemsCodec.encode none xs = (written, none)) (rest : Bytes) :
    F.elemsCodec.decode (written ++ rest) = .ok xs rest := by
  have small := encode_elems_iff.1 ⟨written, wrote⟩
  obtain ⟨-, rfl⟩ := Codec.encode_eq.1 wrote
  exact (carries_elems small).read rest

/-- Each element has one written form, of as many bytes as the modulus needs, and so has each list
    whose length is a word.

    An element is written whole, in bytes that stand for its representative, or the buffer has no
    room for them. Of bytes that are enough the first are read as the number that they stand for,
    if that is below the modulus; less bytes are never read. A list is read back from what it was
    written in, and what is read as a list is what that list is written in. -/
theorem elements_canonical (F : PrimeField) :
    (∀ x : F.Elem, ∃ written : Bytes, written.length = F.byteLen ∧
      Nat.ofDigits 256 (written.map UInt8.toNat) = x.val ∧
      ∀ room, F.elemCodec.encode room x =
        if fits room F.byteLen then (written, none) else ([], some .bufferFull)) ∧
    (∀ front rest : Bytes, front.length = F.byteLen →
      F.elemCodec.decode (front ++ rest) =
        if h : Nat.ofDigits 256 (front.map UInt8.toNat) < F.modulus then .ok ⟨_, h⟩ rest
        else .error (.broken .canonicalElement) rest) ∧
    (∀ bytes : Bytes, bytes.length < F.byteLen →
      F.elemCodec.decode bytes = .error .endOfInput bytes) ∧
    (∀ xs : List F.Elem,
      (∃ written, F.elemsCodec.encode none xs = (written, none)) ↔ xs.length < wordRange) ∧
    (∀ (xs : List F.Elem) (written rest : Bytes), F.elemsCodec.encode none xs = (written, none) →
      F.elemsCodec.decode (written ++ rest) = .ok xs rest) ∧
    (∀ (bytes rest : Bytes) (xs : List F.Elem), F.elemsCodec.decode bytes = .ok xs rest →
      ∃ written, F.elemsCodec.encode none xs = (written, none) ∧ bytes = written ++ rest) := by
  refine ⟨fun x => ?_, fun front rest length => ?_, fun bytes => decode_elem_of_short,
    fun xs => encode_elems_iff, fun xs written rest wrote => decode_elems wrote rest,
    canonical_elems.exact⟩
  · refine ⟨littleEndian F.byteLen x.val, length_littleEndian _ _, ?_,
      fun room => encode_elem room x⟩
    rw [← ofLittleEndian_eq_ofDigits, ofLittleEndian_val]
  · simp only [← ofLittleEndian_eq_ofDigits]
    exact decode_elem length rest

/-- The greatest element of the small field is read from one byte, and the byte after it is not. Of
    the large field a number of 32 bytes that is too large is refused. -/
theorem elements_canonical_both :
    tiny.elemCodec.decode [46, 7] = .ok ⟨46, by decide⟩ [7] ∧
      tiny.elemCodec.decode [47, 7] = .error (.broken .canonicalElement) [7] ∧
      tiny.elemCodec.decode [] = .error .endOfInput [] ∧
      tiny.elemsCodec.decode ([2, 0, 0, 0, 46, 0] ++ [7]) = .ok [⟨46, by decide⟩, 0] [7] ∧
      bn254.elemCodec.decode (List.replicate 32 255) = .error (.broken .canonicalElement) [] := by
  obtain ⟨-, element, short, -, list, -⟩ := elements_canonical tiny
  refine ⟨element [46] [7] rfl, element [47] [7] rfl, short [] (by decide), list _ _ _ rfl, ?_⟩
  exact (elements_canonical bn254).2.1 (List.replicate 32 255) [] (by decide)

example : tiny.byteLen = 1 ∧ bn254.byteLen = 32 := by decide

end PrimeField

end CircuitWitness
