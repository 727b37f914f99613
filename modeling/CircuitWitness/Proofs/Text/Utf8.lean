import CircuitWitness.Proofs.Stateful
import CircuitWitness.Text.Utf8
import Mathlib.Data.Nat.Notation

/-!
# Text as bytes and back

The bytes of a character announce how many there are, lie in the ranges that are expected, and
stand for the number of the character. So a text can be read from its bytes. In turn a text has no
other bytes than these that it can be read from.

Results:
* `decodeFrom_encodeChar`: the bytes of a character are read as that character.
* `decode_encode`: the bytes of a text are read as that text.
* `encode_of_decode`: a text is written as the bytes that it was read from.
-/

namespace CircuitWitness.Utf8

/-! ## Continuation bytes -/

theorem toNat_byte {n : ℕ} (h : n < 256) : (UInt8.ofNat n).toNat = n := by
  rw [UInt8.toNat_ofNat']
  exact Nat.mod_eq_of_lt h

/-- A byte in range that is not the last one takes the place of six bits. -/
theorem decodeFrom_more {start : ℕ} {p : Pending} {n : ℕ} {rest : List UInt8} (byte : n < 256)
    (low : p.low ≤ n) (high : n ≤ p.high) (owed : 1 < p.owed) :
    decodeFrom start (some p) (UInt8.ofNat n :: rest)
      = decodeFrom start
          (some ⟨p.seen + 1, p.owed - 1, 0x80, 0xBF, p.code * 64 + (n - 0x80)⟩) rest := by
  rw [decodeFrom, toNat_byte byte]
  simp only [low, high, and_self, if_true, Nat.not_le.2 owed, if_false]

/-- The last byte of a character, in range, completes it. -/
theorem decodeFrom_last {start : ℕ} {p : Pending} {n : ℕ} {rest : List UInt8} (byte : n < 256)
    (low : p.low ≤ n) (high : n ≤ p.high) (owed : p.owed ≤ 1) :
    decodeFrom start (some p) (UInt8.ofNat n :: rest)
      = List.cons (Char.ofNat (p.code * 64 + (n - 0x80)))
          <$> decodeFrom (start + p.seen + 1) none rest := by
  rw [decodeFrom, toNat_byte byte]
  simp only [low, high, and_self, if_true, owed]
  rfl

/-- A leading byte announces a longer form. -/
theorem decodeFrom_lead {start : ℕ} {p : Pending} {n : ℕ} {rest : List UInt8} (byte : n < 256)
    (long : 0x80 ≤ n) (announced : lead n = some p) :
    decodeFrom start none (UInt8.ofNat n :: rest) = decodeFrom start (some p) rest := by
  rw [decodeFrom, toNat_byte byte]
  simp only [announced, Nat.not_lt.2 long, if_false]

/-! ## Leading bytes -/

theorem lead_two {k : ℕ} (low : 2 ≤ k) (high : k < 32) :
    lead (0xC0 + k) = some ⟨1, 1, 0x80, 0xBF, k⟩ := by
  rw [lead, if_pos (by omega), Nat.add_sub_cancel_left]

/-- The range after the leading byte of three keeps out what has a shorter form and surrogates. -/
theorem lead_three {k m : ℕ} (high : k < 16) (small : m < 64) (long : k = 0 → 32 ≤ m)
    (scalar : k = 13 → m < 32) : ∃ p, lead (0xE0 + k) = some p ∧ p.seen = 1 ∧ p.owed = 2 ∧
      p.code = k ∧ p.low ≤ 0x80 + m ∧ 0x80 + m ≤ p.high := by
  unfold lead
  rw [if_neg (by omega)]
  by_cases first : k = 0
  · have := long first
    rw [if_pos (by omega)]
    exact ⟨_, rfl, rfl, rfl, first.symm, by simp only; omega, by simp only; omega⟩
  · rw [if_neg (by omega)]
    by_cases surrogate : k = 13
    · have := scalar surrogate
      rw [if_pos (by omega)]
      exact ⟨_, rfl, rfl, rfl, surrogate.symm, by simp only; omega, by simp only; omega⟩
    · rw [if_neg (by omega), if_pos (by omega)]
      exact ⟨_, rfl, rfl, rfl, by simp only; omega, by simp only; omega, by simp only; omega⟩

/-- The range after the leading byte of four keeps out what has a shorter form and what is past the
    last character. -/
theorem lead_four {k m : ℕ} (high : k ≤ 4) (small : m < 64) (long : k = 0 → 16 ≤ m)
    (scalar : k = 4 → m < 16) : ∃ p, lead (0xF0 + k) = some p ∧ p.seen = 1 ∧ p.owed = 3 ∧
      p.code = k ∧ p.low ≤ 0x80 + m ∧ 0x80 + m ≤ p.high := by
  unfold lead
  rw [if_neg (by omega), if_neg (by omega), if_neg (by omega), if_neg (by omega)]
  by_cases first : k = 0
  · have := long first
    rw [if_pos (by omega)]
    exact ⟨_, rfl, rfl, rfl, first.symm, by simp only; omega, by simp only; omega⟩
  · rw [if_neg (by omega)]
    by_cases last : k = 4
    · have := scalar last
      rw [if_neg (by omega), if_pos (by omega)]
      exact ⟨_, rfl, rfl, rfl, last.symm, by simp only; omega, by simp only; omega⟩
    · rw [if_pos (by omega)]
      exact ⟨_, rfl, rfl, rfl, by simp only; omega, by simp only; omega, by simp only; omega⟩

/-! ## Characters and texts -/

/-- The number of a character is none of the surrogates. -/
theorem toNat_scalar (c : Char) : c.toNat < 0xD800 ∨ 0xDFFF < c.toNat ∧ c.toNat < 0x110000 :=
  c.valid

/-- The bytes of a character are read as that character. -/
theorem decodeFrom_encodeChar (start : ℕ) (c : Char) (rest : List UInt8) :
    decodeFrom start none (encodeChar c ++ rest)
      = List.cons c <$> decodeFrom (start + (encodeChar c).length) none rest := by
  have scalar := toNat_scalar c
  have char : Char.ofNat c.toNat = c := Char.ofNat_toNat c
  unfold encodeChar
  generalize c.toNat = n at scalar char
  dsimp only
  split
  · next one =>
    rw [List.cons_append, List.nil_append, decodeFrom, toNat_byte (by omega)]
    simp only [one, if_true, char]
    rfl
  · split
    · next two =>
      have announced := lead_two (k := n / 64) (by omega) (by omega)
      simp only [List.cons_append, List.nil_append]
      rw [decodeFrom_lead (by omega) (by omega) announced, decodeFrom_last (by omega)
        (by simp only; omega) (by simp only; omega) (by simp only; omega)]
      rw [show n / 64 * 64 + (0x80 + n % 64 - 0x80) = n by omega, char]
      rfl
    · split
      · next three =>
        obtain ⟨p, announced, seen, owed, code, low, high⟩ :=
          lead_three (k := n / 4096) (m := n / 64 % 64) (by omega) (by omega) (by omega) (by omega)
        simp only [List.cons_append, List.nil_append]
        rw [decodeFrom_lead (by omega) (by omega) announced,
          decodeFrom_more (by omega) low high (by omega),
          decodeFrom_last (by omega) (by simp only; omega) (by simp only; omega)
            (by simp only; omega)]
        simp only [seen, code]
        rw [show (n / 4096 * 64 + (0x80 + n / 64 % 64 - 0x80)) * 64 + (0x80 + n % 64 - 0x80) = n
          by omega, char]
        rfl
      · next four =>
        obtain ⟨p, announced, seen, owed, code, low, high⟩ :=
          lead_four (k := n / 262144) (m := n / 4096 % 64) (by omega) (by omega) (by omega)
            (by omega)
        simp only [List.cons_append, List.nil_append]
        rw [decodeFrom_lead (by omega) (by omega) announced,
          decodeFrom_more (by omega) low high (by omega),
          decodeFrom_more (by omega) (by simp only; omega) (by simp only; omega)
            (by simp only; omega),
          decodeFrom_last (by omega) (by simp only; omega) (by simp only; omega)
            (by simp only; omega)]
        simp only [seen, code]
        rw [show ((n / 262144 * 64 + (0x80 + n / 4096 % 64 - 0x80)) * 64
          + (0x80 + n / 64 % 64 - 0x80)) * 64 + (0x80 + n % 64 - 0x80) = n by omega, char]
        rfl

theorem decodeFrom_flatMap_encodeChar (start : ℕ) (cs : List Char) :
    decodeFrom start none (cs.flatMap encodeChar) = .ok cs := by
  induction cs generalizing start with
  | nil => rfl
  | cons c cs ih =>
    rw [List.flatMap_cons, decodeFrom_encodeChar, ih]
    rfl

/-- The bytes of a text are read as that text. -/
theorem decode_encode (s : String) : decode (encode s) = .ok s := by
  rw [decode, encode, decodeFrom_flatMap_encodeChar]
  exact congrArg Except.ok String.ofList_toList

/-! ## Bytes that were read -/

/-- What the range of the next byte says once a leading byte was seen. -/
theorem lead_cases {n : ℕ} {p : Pending} (h : lead n = some p) : p.seen = 1 ∧ 0x80 ≤ p.low ∧
    p.high ≤ 0xBF ∧ ((0xC2 ≤ n ∧ n ≤ 0xDF ∧ p.owed = 1 ∧ p.code + 0xC0 = n) ∨
      (0xE0 ≤ n ∧ n ≤ 0xEF ∧ p.owed = 2 ∧ p.code + 0xE0 = n ∧ (n = 0xE0 → 0xA0 ≤ p.low) ∧
        (n = 0xED → p.high ≤ 0x9F)) ∨
      (0xF0 ≤ n ∧ n ≤ 0xF4 ∧ p.owed = 3 ∧ p.code + 0xF0 = n ∧ (n = 0xF0 → 0x90 ≤ p.low) ∧
        (n = 0xF4 → p.high ≤ 0x8F))) := by
  unfold lead at h
  repeat' split at h
  all_goals cases h <;> dsimp only <;> omega

/-- A character that has begun and owes one byte ends with it. -/
theorem decodeFrom_last_ok {start : ℕ} {p : Pending} {bytes : List UInt8} {cs : List Char}
    (h : decodeFrom start (some p) bytes = .ok cs) (owed : p.owed ≤ 1) :
    ∃ byte rest cs', bytes = byte :: rest ∧ p.low ≤ byte.toNat ∧ byte.toNat ≤ p.high ∧
      cs = Char.ofNat (p.code * 64 + (byte.toNat - 0x80)) :: cs' ∧
      decodeFrom (start + p.seen + 1) none rest = .ok cs' := by
  cases bytes with
  | nil => cases h
  | cons byte rest =>
    rw [decodeFrom] at h
    dsimp only at h
    split at h
    · next range =>
      obtain ⟨cs', decoded, last⟩ := except_bind_ok.1 h
      obtain rfl := Except.ok.inj last
      exact ⟨byte, rest, cs', rfl, range.1, range.2, rfl, decoded⟩
    · cases h

/-- A character that has begun and owes more goes on with one of the bytes. -/
theorem decodeFrom_more_ok {start : ℕ} {p : Pending} {bytes : List UInt8} {cs : List Char}
    (h : decodeFrom start (some p) bytes = .ok cs) (owed : 1 < p.owed) :
    ∃ byte rest, bytes = byte :: rest ∧ p.low ≤ byte.toNat ∧ byte.toNat ≤ p.high ∧
      decodeFrom start (some ⟨p.seen + 1, p.owed - 1, 0x80, 0xBF,
        p.code * 64 + (byte.toNat - 0x80)⟩) rest = .ok cs := by
  cases bytes with
  | nil => cases h
  | cons byte rest =>
    rw [decodeFrom] at h
    dsimp only at h
    split at h
    · next range =>
      rw [if_neg (by omega)] at h
      exact ⟨byte, rest, rfl, range.1, range.2, h⟩
    · cases h

theorem ofNat_byte {b : UInt8} {n : ℕ} (h : n = b.toNat) : UInt8.ofNat n = b := by
  rw [h, UInt8.ofNat_toNat]

theorem toNat_ofNat {n : ℕ} (h : n < 0xD800 ∨ 0xDFFF < n ∧ n < 0x110000) :
    (Char.ofNat n).toNat = n := by
  rw [Char.ofNat, dif_pos h]
  rfl

/-- Bytes that are read begin with those of the first character. -/
theorem decodeFrom_cons_ok {start : ℕ} {b : UInt8} {bytes : List UInt8} {cs : List Char}
    (h : decodeFrom start none (b :: bytes) = .ok cs) :
    ∃ (c : Char) (cs' : List Char) (next : ℕ) (rest : List UInt8), cs = c :: cs' ∧
      b :: bytes = encodeChar c ++ rest ∧ decodeFrom next none rest = .ok cs' := by
  rw [decodeFrom] at h
  split at h
  · next small =>
    obtain ⟨cs', decoded, last⟩ := except_bind_ok.1 h
    refine ⟨_, cs', start + 1, bytes, (Except.ok.inj last).symm, ?_, decoded⟩
    rw [encodeChar, toNat_ofNat (by omega)]
    simp only [small, if_true, UInt8.ofNat_toNat, List.cons_append, List.nil_append]
  · split at h
    · cases h
    · next p announced =>
      obtain ⟨-, low, high, two | three | four⟩ := lead_cases announced
      · obtain ⟨first, last, owed, code⟩ := two
        obtain ⟨b₁, rest, cs', rfl, low₁, high₁, same, decoded⟩ :=
          decodeFrom_last_ok h (by omega)
        refine ⟨_, cs', _, rest, same, ?_, decoded⟩
        rw [encodeChar, toNat_ofNat (by omega), if_neg (by omega), if_pos (by omega),
          ofNat_byte (b := b) (by omega), ofNat_byte (b := b₁) (by omega)]
        rfl
      · obtain ⟨first, last, owed, code, short, surrogate⟩ := three
        obtain ⟨b₁, rest, rfl, low₁, high₁, h⟩ := decodeFrom_more_ok h (by omega)
        obtain ⟨b₂, rest, cs', rfl, low₂, high₂, same, decoded⟩ :=
          decodeFrom_last_ok h (by dsimp only; omega)
        dsimp only at low₂ high₂ same
        refine ⟨_, cs', _, rest, same, ?_, decoded⟩
        rw [encodeChar, toNat_ofNat (by omega), if_neg (by omega), if_neg (by omega),
          if_pos (by omega), ofNat_byte (b := b) (by omega), ofNat_byte (b := b₁) (by omega),
          ofNat_byte (b := b₂) (by omega)]
        rfl
      · obtain ⟨first, last, owed, code, short, past⟩ := four
        obtain ⟨b₁, rest, rfl, low₁, high₁, h⟩ := decodeFrom_more_ok h (by omega)
        obtain ⟨b₂, rest, rfl, low₂, high₂, h⟩ := decodeFrom_more_ok h (by dsimp only; omega)
        obtain ⟨b₃, rest, cs', rfl, low₃, high₃, same, decoded⟩ :=
          decodeFrom_last_ok h (by dsimp only; omega)
        dsimp only at low₂ high₂ low₃ high₃ same
        refine ⟨_, cs', _, rest, same, ?_, decoded⟩
        rw [encodeChar, toNat_ofNat (by omega), if_neg (by omega), if_neg (by omega),
          if_neg (by omega), ofNat_byte (b := b) (by omega), ofNat_byte (b := b₁) (by omega),
          ofNat_byte (b := b₂) (by omega), ofNat_byte (b := b₃) (by omega)]
        rfl

theorem flatMap_encodeChar_of_decodeFrom {start : ℕ} {bytes : List UInt8} {cs : List Char}
    (h : decodeFrom start none bytes = .ok cs) : cs.flatMap encodeChar = bytes := by
  induction cs generalizing start bytes with
  | nil =>
    cases bytes with
    | nil => rfl
    | cons b bytes =>
      obtain ⟨_, _, _, _, ⟨⟩, -⟩ := decodeFrom_cons_ok h
  | cons c cs ih =>
    cases bytes with
    | nil => cases h
    | cons b bytes =>
      obtain ⟨_, _, next, rest, same, split, decoded⟩ := decodeFrom_cons_ok h
      obtain ⟨rfl, rfl⟩ := List.cons.inj same
      rw [List.flatMap_cons, ih decoded, split]

/-- A text is written as the bytes that it was read from. -/
theorem encode_of_decode {bytes : List UInt8} {s : String} (h : decode bytes = .ok s) :
    encode s = bytes := by
  obtain ⟨cs, decoded, last⟩ := except_bind_ok.1 h
  obtain rfl := Except.ok.inj last
  rw [encode, String.toList_ofList, flatMap_encodeChar_of_decodeFrom decoded]

end CircuitWitness.Utf8
