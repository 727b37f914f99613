import CircuitWitness.Proofs.Codec.Sections
import CircuitWitness.Proofs.Stateful
import Mathlib.Data.List.Basic

/-!
# Writing what was read

Most forms are canonical: the bytes that are accepted for a value are those of its items, and no
others. A map is accepted with its entries in any order, and the modulus with zero bytes after its
last digit. Whatever is accepted is carried, so it can be written again, in no more bytes. Reading
takes bytes from the front and never puts any back, also when it fails.

Results:
* `Consumes.bind`: what is left after two readers is the end of what was there before them.
* `Canonical.pair`, `Canonical.list`, `Canonical.string`: the composite forms.
* `read_map_ok`: a map is accepted with its entries in any order.
* `read_header_ok`: the modulus is accepted with zero bytes after its digits.
-/

namespace CircuitWitness

variable {α β κ : Type}

/-! ## Items in a row, and in another order -/

theorem Piece.join_next {ps qs : List Piece} (whole : Whole ps) {rest tail : Bytes}
    (later : join qs ++ rest = tail) : join (ps ++ qs) ++ rest = join ps ++ tail := by
  rw [join_append whole, List.append_assoc, later]

/-- Items take as many bytes in another order. -/
theorem Piece.length_join_of_perm {ps qs : List Piece} (perm : ps.Perm qs) (whole : Whole ps) :
    (join ps).length = (join qs).length := by
  induction perm with
  | nil => rfl
  | cons p _ ih =>
    obtain ⟨bs, rfl⟩ := whole p List.mem_cons_self
    have rest := ih fun q hq => whole q (List.mem_cons_of_mem _ hq)
    simp only [join, List.length_append, rest]
  | swap p q l =>
    obtain ⟨bs, rfl⟩ := whole p (by simp)
    obtain ⟨bs', rfl⟩ := whole q (by simp)
    simp only [join, List.length_append]
    omega
  | trans first _ ih ih' =>
    exact (ih whole).trans (ih' fun p hp => whole p (first.mem_iff.2 hp))

/-! ## Bytes that are left -/

/-- A reader takes bytes from the front, also when it fails. -/
def Decoder.Consumes (d : Decoder α) : Prop := ∀ bytes, stateAfter (d.run bytes) <:+ bytes

namespace Decoder

theorem Consumes.pure (x : α) : Consumes (Pure.pure x) := fun bytes => List.suffix_refl bytes

theorem Consumes.throw (e : DecodeError) : Consumes (throw e : Decoder α) :=
  fun bytes => List.suffix_refl bytes

theorem Consumes.bind {d : Decoder α} {next : α → Decoder β} (first : d.Consumes)
    (second : ∀ x, (next x).Consumes) : (d >>= next).Consumes := by
  intro bytes
  have front := first bytes
  rw [EStateM.run_bind]
  cases ran : d.run bytes with
  | ok x rest =>
    rw [ran] at front
    exact (second x rest).trans front
  | error e rest =>
    rw [ran] at front
    exact front

theorem Consumes.map {d : Decoder α} (h : d.Consumes) (f : α → β) : (f <$> d).Consumes := by
  rw [← bind_pure_comp]
  exact h.bind fun x => .pure (f x)

theorem consumes_take (n : ℕ) : (take n).Consumes := by
  intro bytes
  simp only [EStateM.run, take, splitExactly_eq]
  split
  · next split =>
    split at split
    · obtain ⟨-, rfl⟩ := Prod.mk.inj (Option.some.inj split)
      exact List.drop_suffix n bytes
    · cases split
  · exact List.suffix_refl bytes

theorem consumes_remaining : remaining.Consumes := fun bytes => List.suffix_refl bytes

theorem consumes_require (rule : FormatRule) (holds : Bool) : (require rule holds).Consumes := by
  cases holds with
  | true => exact .pure ()
  | false => exact .throw _

theorem Consumes.replicate {d : Decoder α} (h : d.Consumes) (n : ℕ) :
    (replicate n d).Consumes := by
  induction n with
  | zero => exact .pure []
  | succ n ih => exact h.bind fun x => ih.bind fun xs => .pure (x :: xs)

theorem take_ok {n : ℕ} {bytes rest bs : Bytes} (h : (take n).run bytes = .ok bs rest) :
    bs.length = n ∧ bytes = bs ++ rest := by
  simp only [EStateM.run, take, splitExactly_eq] at h
  split at h
  · next split =>
    split at split
    · next enough =>
      obtain ⟨rfl, rfl⟩ := Prod.mk.inj (Option.some.inj split)
      obtain ⟨rfl, rfl⟩ := EStateM.Result.ok.inj h
      exact ⟨List.length_take_of_le enough, (List.take_append_drop n bytes).symm⟩
    · cases split
  · cases h

theorem require_ok {rule : FormatRule} {holds : Bool} {bytes rest : Bytes} {u : Unit}
    (h : (require rule holds).run bytes = .ok u rest) : holds ∧ rest = bytes := by
  cases holds with
  | true =>
    obtain ⟨-, rfl⟩ := pure_ok.1 h
    exact ⟨rfl, rfl⟩
  | false => cases h

theorem require_bind_ok {rule : FormatRule} {holds : Bool} {next : Unit → Decoder β}
    {bytes rest : Bytes} {y : β} (h : (require rule holds >>= next).run bytes = .ok y rest) :
    holds ∧ (next ()).run bytes = .ok y rest := by
  obtain ⟨_, after, required, tail⟩ := bind_ok.1 h
  obtain ⟨kept, rfl⟩ := require_ok required
  exact ⟨kept, tail⟩

end Decoder

/-! ## Digits -/

/-- Bytes are the digits of the number that they stand for. -/
theorem littleEndian_ofLittleEndian (bs : Bytes) :
    littleEndian bs.length (ofLittleEndian bs) = bs := by
  induction bs with
  | nil => rfl
  | cons b bs ih =>
    have low : (b.toNat + 256 * ofLittleEndian bs) % 256 = b.toNat := by
      have := b.toNat_lt
      omega
    have high : (b.toNat + 256 * ofLittleEndian bs) / 256 = ofLittleEndian bs := by
      have := b.toNat_lt
      omega
    rw [List.length_cons, ofLittleEndian, littleEndian, low, high, ih, UInt8.ofNat_toNat]

theorem ofLittleEndian_lt (bs : Bytes) : ofLittleEndian bs < Nat.pow 256 bs.length := by
  have digits := ofLittleEndian_littleEndian bs.length (ofLittleEndian bs)
  rw [littleEndian_ofLittleEndian] at digits
  rw [digits]
  exact Nat.mod_lt _ (Nat.pow_pos (by decide))

/-- Digits after the last one of a number are zero. -/
theorem littleEndian_add {k n : ℕ} (small : n < Nat.pow 256 k) (more : ℕ) :
    littleEndian (k + more) n = littleEndian k n ++ List.replicate more 0 := by
  induction k generalizing n with
  | zero =>
    obtain rfl : n = 0 := Nat.lt_one_iff.1 small
    rw [Nat.zero_add, littleEndian, List.nil_append]
    induction more with
    | zero => rfl
    | succ more ih =>
      rw [littleEndian, ih, List.replicate_succ]
      rfl
  | succ k ih =>
    have smaller : n / 256 < Nat.pow 256 k :=
      Nat.div_lt_of_lt_mul (by rwa [Nat.mul_comm])
    rw [Nat.succ_add, littleEndian, ih smaller]
    rfl

namespace Codec

/-! ## Canonical forms -/

/-- A form in which a value is accepted from the bytes of its items only. -/
structure Canonical (c : Codec α) : Prop where
  consumes : c.read.Consumes
  accepts : ∀ {bytes rest : Bytes} {x : α}, c.read.run bytes = .ok x rest →
    c.Carries x ∧ bytes = Piece.join (c.pieces x) ++ rest

/-- What is read in a canonical form before something else. -/
theorem Canonical.bind_ok {c : Codec α} (h : c.Canonical) {next : α → Decoder β}
    {bytes rest : Bytes} {y : β} (ran : (c.read >>= next).run bytes = .ok y rest) :
    ∃ x after, c.Carries x ∧ bytes = Piece.join (c.pieces x) ++ after ∧
      (next x).run after = .ok y rest := by
  obtain ⟨x, after, read, ran⟩ := CircuitWitness.bind_ok.1 ran
  obtain ⟨carried, same⟩ := h.accepts read
  exact ⟨x, after, carried, same, ran⟩

/-! ## Numbers and tags -/

theorem Canonical.number {k : ℕ} {toNat : α → ℕ} {ofNat : ℕ → α}
    (inverse : ∀ n < Nat.pow 256 k, toNat (ofNat n) = n) : (number k toNat ofNat).Canonical := by
  refine ⟨(Decoder.consumes_take k).bind fun bs => .pure _, fun {bytes rest x} ran => ?_⟩
  obtain ⟨bs, after, taken, ran⟩ := CircuitWitness.bind_ok.1 ran
  obtain ⟨rfl, rfl⟩ := pure_ok.1 ran
  obtain ⟨rfl, rfl⟩ := Decoder.take_ok taken
  have same := inverse _ (ofLittleEndian_lt bs)
  refine ⟨carries_number (by rw [same]; exact ofLittleEndian_lt bs) (by rw [same]), ?_⟩
  simp only [Codec.number, Piece.join_one, same, littleEndian_ofLittleEndian]

theorem canonical_u8 : u8.Canonical := .number fun _ small => UInt8.toNat_ofNat_of_lt small

theorem canonical_u16 : u16.Canonical := .number fun _ small => UInt16.toNat_ofNat_of_lt small

theorem canonical_u32 : u32.Canonical := .number fun _ small => UInt32.toNat_ofNat_of_lt small

theorem canonical_u64 : u64.Canonical := .number fun _ small => UInt64.toNat_ofNat_of_lt small

theorem canonical_size : size.Canonical := by
  refine ⟨(Decoder.consumes_take 4).bind fun bs => .pure _, fun {bytes rest n} ran => ?_⟩
  obtain ⟨bs, after, taken, ran⟩ := CircuitWitness.bind_ok.1 ran
  obtain ⟨rfl, rfl⟩ := pure_ok.1 ran
  obtain ⟨length, rfl⟩ := Decoder.take_ok taken
  have small : ofLittleEndian bs < wordRange := by
    have := ofLittleEndian_lt bs
    rwa [length] at this
  refine ⟨carries_size small, ?_⟩
  rw [show size.pieces (ofLittleEndian bs) = [.bytes (littleEndian 4 (ofLittleEndian bs))] from
    if_pos small, Piece.join_one, ← length, littleEndian_ofLittleEndian]

/-- A size that is written fits into a word. -/
theorem size_lt {n : ℕ} (h : Piece.Whole (size.pieces n)) : n < wordRange := by
  by_contra large
  have overlong : size.pieces n = [.overlong n] := if_neg large
  obtain ⟨bs, same⟩ := h (.overlong n) (by simp [overlong])
  cases same

theorem length_lt {c : Codec α} {l : List α} (whole : Piece.Whole ((list c).pieces l)) :
    l.length < wordRange :=
  size_lt fun p mem => whole p (List.mem_append_left _ mem)

/-- Bytes take four more, for their number. -/
theorem length_join_bytes {bs : Bytes} (small : bs.length < wordRange) :
    (Piece.join ((list u8).pieces bs)).length = 4 + bs.length := by
  have each (l : Bytes) : (Piece.join (l.flatMap u8.pieces)).length = l.length := by
    induction l with
    | nil => rfl
    | cons b l ih =>
      have one : (Piece.join (u8.pieces b)).length = 1 := rfl
      rw [List.flatMap_cons, Piece.join_append (carries_u8 b).whole, List.length_append, one, ih,
        List.length_cons, Nat.add_comm]
  have length := carries_size small
  have pieces : size.pieces bs.length = [.bytes (littleEndian 4 bs.length)] := if_pos small
  rw [list, Piece.join_append length.whole, List.length_append, each, pieces, Piece.join_one,
    length_littleEndian]

theorem Canonical.tagged (type : TaggedType) (tag : α → UInt8) (all : List α) :
    (tagged type tag all).Canonical := by
  refine ⟨canonical_u8.consumes.bind fun index => ?_, fun {bytes rest x} ran => ?_⟩
  · split
    · exact .pure _
    · exact .throw _
  · obtain ⟨index, after, -, rfl, found⟩ := canonical_u8.bind_ok ran
    split at found
    · next y first =>
      obtain ⟨rfl, rfl⟩ := pure_ok.1 found
      have same : tag x = index := by simpa using List.find?_some first
      subst same
      exact ⟨carries_tagged first, rfl⟩
    · cases found

/-! ## Composite forms -/

theorem Canonical.imap {c : Codec α} (h : c.Canonical) {wrap : α → β} {unwrap : β → α}
    (inverse : ∀ x, unwrap (wrap x) = x) : (c.imap wrap unwrap).Canonical := by
  refine ⟨h.consumes.map wrap, fun {bytes rest x} ran => ?_⟩
  simp only [Codec.imap, ← bind_pure_comp] at ran
  obtain ⟨y, after, carried, rfl, wrapped⟩ := h.bind_ok ran
  obtain ⟨rfl, rfl⟩ := pure_ok.1 wrapped
  refine ⟨carries_imap (by rwa [inverse]) (by rw [inverse]), ?_⟩
  simp only [Codec.imap, inverse]

theorem Canonical.filter {c : Codec α} (h : c.Canonical) (rule : FormatRule) (holds : α → Bool) :
    (c.filter rule holds).Canonical := by
  refine ⟨h.consumes.bind fun x => (Decoder.consumes_require rule _).bind fun _ => .pure x,
    fun {bytes rest x} ran => ?_⟩
  obtain ⟨y, after, carried, rfl, tail⟩ := h.bind_ok ran
  obtain ⟨kept, last⟩ := Decoder.require_bind_ok tail
  obtain ⟨rfl, rfl⟩ := pure_ok.1 last
  exact ⟨carries_filter carried kept, rfl⟩

theorem Canonical.pair {c : Codec α} {d : Codec β} (hc : c.Canonical) (hd : d.Canonical) :
    (pair c d).Canonical := by
  refine ⟨hc.consumes.bind fun x => hd.consumes.bind fun y => .pure (x, y),
    fun {bytes rest z} ran => ?_⟩
  obtain ⟨x, after, first, rfl, tail⟩ := hc.bind_ok ran
  obtain ⟨y, after, second, rfl, last⟩ := hd.bind_ok tail
  obtain ⟨rfl, rfl⟩ := pure_ok.1 last
  refine ⟨carries_pair first second, ?_⟩
  simp only [Codec.pair, Piece.join_append first.whole, List.append_assoc]

theorem canonical_string : string.Canonical := by
  refine ⟨canonical_size.consumes.bind fun n => (Decoder.consumes_take n).bind fun bs => ?_,
    fun {bytes rest s} ran => ?_⟩
  · split
    · exact .pure _
    · exact .throw _
  · obtain ⟨n, after, length, rfl, tail⟩ := canonical_size.bind_ok ran
    obtain ⟨bs, after, taken, last⟩ := CircuitWitness.bind_ok.1 tail
    obtain ⟨rfl, rfl⟩ := Decoder.take_ok taken
    split at last
    · next text decoded =>
      obtain ⟨rfl, rfl⟩ := pure_ok.1 last
      have same := Utf8.encode_of_decode decoded
      subst same
      refine ⟨carries_string (size_lt length.whole), ?_⟩
      simp only [Codec.string, Piece.join_append length.whole, Piece.join_one, List.append_assoc]
    · cases last

/-- Values that are read one after the other are written in the bytes that they were read from. -/
theorem Canonical.replicate_ok {c : Codec α} (h : c.Canonical) {n : ℕ} {bytes rest : Bytes}
    {l : List α} (ran : (Decoder.replicate n c.read).run bytes = .ok l rest) :
    l.length = n ∧ (∀ x ∈ l, c.Carries x) ∧ bytes = Piece.join (l.flatMap c.pieces) ++ rest := by
  induction n generalizing bytes l with
  | zero =>
    obtain ⟨rfl, rfl⟩ := pure_ok.1 ran
    exact ⟨rfl, by simp, rfl⟩
  | succ n ih =>
    obtain ⟨x, after, first, rfl, tail⟩ := h.bind_ok ran
    obtain ⟨xs, after', others, last⟩ := CircuitWitness.bind_ok.1 tail
    obtain ⟨rfl, rfl⟩ := pure_ok.1 last
    obtain ⟨rfl, each, rfl⟩ := ih others
    refine ⟨rfl, List.forall_mem_cons.2 ⟨first, each⟩, ?_⟩
    rw [List.flatMap_cons, Piece.join_append first.whole, List.append_assoc]

theorem Canonical.list {c : Codec α} (h : c.Canonical) : (list c).Canonical := by
  refine ⟨canonical_size.consumes.bind fun n => h.consumes.replicate n,
    fun {bytes rest l} ran => ?_⟩
  obtain ⟨n, after, length, rfl, tail⟩ := canonical_size.bind_ok ran
  obtain ⟨rfl, each, rfl⟩ := h.replicate_ok tail
  refine ⟨carries_list (size_lt length.whole) each, ?_⟩
  simp only [Codec.list, Piece.join_append length.whole, List.append_assoc]

/-! ## Maps -/

section

variable [LE κ] [LT κ] [DecidableLT κ] [DecidableEq κ] [Std.IsLinearOrder κ]
  [Std.LawfulOrderLT κ]

theorem consumes_readEntries {entry : Decoder (κ × α)} (h : entry.Consumes) (n : ℕ)
    (m : OrderedMap κ α) : (readEntries entry n m).Consumes := by
  induction n generalizing m with
  | zero => exact .pure m
  | succ n ih => exact h.bind fun e => (Decoder.consumes_require _ _).bind fun _ => ih _

theorem consumes_map {key : Codec κ} {value : Codec α} (hk : key.Canonical)
    (hv : value.Canonical) : (map key value).read.Consumes :=
  canonical_size.consumes.bind fun n => consumes_readEntries (hk.pair hv).consumes n _

omit [DecidableEq κ] in
/-- A new key does not replace an entry. -/
theorem perm_insertEntry {k : κ} {v : α} {l : List (κ × α)} (fresh : ∀ e ∈ l, e.1 ≠ k) :
    (insertEntry k v l).Perm ((k, v) :: l) := by
  induction l with
  | nil => rfl
  | cons e l ih =>
    rw [insertEntry]
    split
    · rfl
    · next notLt =>
      split
      · have rest := ih fun x hx => fresh x (List.mem_cons_of_mem e hx)
        exact (rest.cons e).trans (.swap _ _ _)
      · next notGt =>
        have same := Std.le_antisymm (Std.not_lt.1 notLt) (Std.not_lt.1 notGt)
        exact absurd same (fresh e List.mem_cons_self)

omit [DecidableLT κ] [LE κ] [Std.IsLinearOrder κ] [Std.LawfulOrderLT κ] in
theorem ne_of_contains {m : OrderedMap κ α} {k : κ} (fresh : m.contains k = false) :
    ∀ e ∈ m.entries, e.1 ≠ k := by
  intro e he same
  rw [OrderedMap.contains, OrderedMap.find?, Option.isSome_map, Option.isSome_eq_false_iff,
    Option.isNone_iff_eq_none, List.find?_eq_none] at fresh
  exact fresh e he (decide_eq_true same)

/-- The entries that are read into a map join those that are there. -/
theorem readEntries_ok {c : Codec (κ × α)} {P : κ × α → Prop}
    (accepts : ∀ {bytes rest : Bytes} {e : κ × α}, c.read.run bytes = .ok e rest →
      P e ∧ Piece.Whole (c.pieces e) ∧ bytes = Piece.join (c.pieces e) ++ rest)
    {n : ℕ} {done m : OrderedMap κ α} {bytes rest : Bytes}
    (ran : (readEntries c.read n done).run bytes = .ok m rest) :
    ∃ l, l.length = n ∧ (∀ e ∈ l, P e) ∧ m.entries.Perm (l ++ done.entries) ∧
      bytes = Piece.join (l.flatMap c.pieces) ++ rest := by
  induction n generalizing bytes done with
  | zero =>
    obtain ⟨rfl, rfl⟩ := pure_ok.1 ran
    exact ⟨[], rfl, by simp, .refl _, rfl⟩
  | succ n ih =>
    obtain ⟨e, after, first, tail⟩ := CircuitWitness.bind_ok.1 ran
    obtain ⟨sound, whole, rfl⟩ := accepts first
    obtain ⟨kept, others⟩ := Decoder.require_bind_ok tail
    have fresh : done.contains e.1 = false := by simpa using kept
    obtain ⟨l, rfl, each, perm, rfl⟩ := ih others
    refine ⟨e :: l, rfl, List.forall_mem_cons.2 ⟨sound, each⟩, ?_, ?_⟩
    · have inserted : (done.insert e.1 e.2).entries.Perm (e :: done.entries) :=
        perm_insertEntry (ne_of_contains fresh)
      exact (perm.trans (inserted.append_left l)).trans List.perm_middle
    · rw [List.flatMap_cons, Piece.join_append whole, List.append_assoc]

/-- A map is accepted from its entries in any order. -/
theorem read_map_ok {key : Codec κ} {value : Codec α} (hk : key.Canonical) (hv : value.Canonical)
    {m : OrderedMap κ α} {bytes rest : Bytes} (ran : (map key value).read.run bytes = .ok m rest) :
    (map key value).Carries m ∧ ∃ l, l.Perm m.entries ∧ (list (pair key value)).Carries l ∧
      bytes = Piece.join ((list (pair key value)).pieces l) ++ rest := by
  obtain ⟨n, after, length, rfl, tail⟩ := canonical_size.bind_ok ran
  have entry := hk.pair hv
  obtain ⟨l, rfl, each, perm, rfl⟩ := readEntries_ok (fun ran =>
    (entry.accepts ran).imp_right fun same => ⟨(entry.accepts ran).1.whole, same⟩) tail
  have perm : l.Perm m.entries := by simpa [OrderedMap.empty] using perm.symm
  have small : l.length < wordRange := size_lt length.whole
  have carried := carries_list small each
  refine ⟨carries_map_of_entries (by rwa [OrderedMap.size, ← perm.length_eq]) fun e he =>
    each e (perm.mem_iff.2 he), l, perm, carried, ?_⟩
  simp only [Codec.list, Piece.join_append length.whole, List.append_assoc]

/-- The items of values in another order take as many bytes. -/
theorem length_join_list {c : Codec α} {l l' : List α} (perm : l.Perm l')
    (whole : Piece.Whole ((list c).pieces l)) : (Piece.join ((list c).pieces l)).length
      = (Piece.join ((list c).pieces l')).length := by
  refine Piece.length_join_of_perm ?_ whole
  simp only [list, perm.length_eq]
  exact (perm.flatMap_right c.pieces).append_left _

end

end Codec

/-! ## Field elements -/

namespace PrimeField

variable {F : PrimeField}

theorem canonical_elem : F.elemCodec.Canonical := by
  refine ⟨(Decoder.consumes_take _).bind fun bs => ?_, fun {bytes rest x} ran => ?_⟩
  · split
    · exact .pure _
    · exact .throw _
  · obtain ⟨bs, after, taken, last⟩ := bind_ok.1 ran
    obtain ⟨length, rfl⟩ := Decoder.take_ok taken
    split at last
    · next y canonical =>
      obtain ⟨rfl, rfl⟩ := pure_ok.1 last
      have value : ofLittleEndian bs = x.val := by
        unfold Elem.ofCanonical? at canonical
        split at canonical
        · obtain rfl := Option.some.inj canonical
          rfl
        · cases canonical
      refine ⟨carries_elem x, ?_⟩
      simp only [elemCodec, Piece.join_one, ← value, ← length, littleEndian_ofLittleEndian]
    · cases last

theorem canonical_elems : F.elemsCodec.Canonical := by
  refine ⟨Codec.canonical_size.consumes.bind fun n =>
    Decoder.consumes_remaining.bind fun left => ?_, fun {bytes rest l} ran => ?_⟩
  · split
    · exact (Decoder.Consumes.throw _).bind fun _ => canonical_elem.consumes.replicate n
    · exact canonical_elem.consumes.replicate n
  · obtain ⟨n, after, length, rfl, tail⟩ := Codec.canonical_size.bind_ok ran
    obtain ⟨left, after, remaining, tail⟩ := bind_ok.1 tail
    obtain ⟨rfl, rfl⟩ := EStateM.Result.ok.inj remaining
    split at tail
    · cases tail
    · obtain ⟨rfl, each, rfl⟩ := canonical_elem.replicate_ok tail
      refine ⟨carries_elems (Codec.size_lt length.whole), ?_⟩
      simp only [elemsCodec, Codec.list, Piece.join_append length.whole, List.append_assoc]

theorem consumes_header : F.headerCodec.read.Consumes :=
  Codec.canonical_u8.list.consumes.bind fun _ => Decoder.consumes_require _ _

/-- The modulus takes at least its digits. -/
theorem byteLen_le {bs : Bytes} (h : ofLittleEndian bs = F.modulus) : F.byteLen ≤ bs.length := by
  have large : 2 ^ F.modulus.log2 ≤ F.modulus := Nat.log2_self_le (by have := F.five_le; omega)
  have small : F.modulus < 2 ^ (8 * bs.length) := by
    rw [← h, Nat.pow_mul]
    exact ofLittleEndian_lt bs
  have := (Nat.pow_lt_pow_iff_right (by decide)).1 (Nat.lt_of_le_of_lt large small)
  unfold byteLen
  omega

/-- The modulus is accepted with zero bytes after its digits. -/
theorem read_header_ok {bytes rest : Bytes} (ran : F.headerCodec.read.run bytes = .ok () rest) :
    F.headerCodec.Carries () ∧ ∃ zeros,
      let digits := littleEndian F.byteLen F.modulus ++ List.replicate zeros 0
      (Codec.list Codec.u8).Carries digits ∧
        bytes = Piece.join ((Codec.list Codec.u8).pieces digits) ++ rest := by
  obtain ⟨bs, after, carried, rfl, last⟩ := Codec.canonical_u8.list.bind_ok ran
  obtain ⟨same, rfl⟩ := Decoder.require_ok last
  have same : ofLittleEndian bs = F.modulus := of_decide_eq_true same
  have long := byteLen_le same
  have padded : littleEndian F.byteLen F.modulus ++ List.replicate (bs.length - F.byteLen) 0
      = bs := by
    rw [← littleEndian_add F.modulus_lt, Nat.add_sub_of_le long, ← same,
      littleEndian_ofLittleEndian]
  have counted := Codec.length_lt carried.whole
  refine ⟨carries_header (by omega), bs.length - F.byteLen, ?_⟩
  rw [padded]
  exact ⟨carried, rfl⟩

end PrimeField

/-! ## Records -/

theorem CircuitKind.canonical : CircuitKind.codec.Canonical := .tagged _ _ _

theorem Blueprint.canonical : Blueprint.codec.Canonical := .tagged _ _ _

theorem Instruction.canonical : Instruction.codec.Canonical :=
  (Codec.canonical_u32.pair (Codec.canonical_u32.pair Codec.canonical_u64)).imap fun _ => rfl

theorem Term.canonical : Term.codec.Canonical :=
  (Codec.canonical_u32.pair Codec.canonical_u32).imap fun _ => rfl

theorem HintCall.canonical : HintCall.codec.Canonical :=
  (Codec.canonical_u32.pair (Term.canonical.list.list.pair Codec.canonical_u32.list)).imap
    fun _ => rfl

theorem LogEntry.canonical : LogEntry.codec.Canonical :=
  (Codec.canonical_string.pair (Codec.canonical_string.pair
    (Term.canonical.list.list.pair Codec.canonical_u32.list))).imap fun _ => rfl

theorem SourceFunction.canonical : SourceFunction.codec.Canonical :=
  (Codec.canonical_string.pair Codec.canonical_string).imap fun _ => rfl

theorem Location.canonical : Location.codec.Canonical :=
  (Codec.canonical_u32.pair Codec.canonical_u32).imap fun _ => rfl

theorem SymbolTable.canonical : SymbolTable.codec.Canonical :=
  ((SourceFunction.canonical.list.pair Location.canonical.list).imap fun _ => rfl).filter _ _

end CircuitWitness
