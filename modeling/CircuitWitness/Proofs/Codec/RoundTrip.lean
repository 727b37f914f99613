import CircuitWitness.Codec.Standard
import CircuitWitness.Proofs.Text.Utf8

/-!
# Reading what was written

A form carries a value if none of its items lacks a written form, and if reading gives the value
back from the bytes of its items, whatever follows them. A composite form carries the values whose
parts are carried and whose lengths fit into a word.

Results:
* `encode_of_carries`: a value that is carried is written completely.
* `Carries.bind`: what follows a value is read from where it ends.
* `carries_list`, `carries_pair`, `carries_map`: the composite forms.
-/

namespace CircuitWitness

/-! ## Items -/

/-- Items of which none is an overlong size. -/
def Piece.Whole (ps : List Piece) : Prop := ∀ p ∈ ps, ∃ bs, p = .bytes bs

namespace Piece

theorem Whole.one (bs : Bytes) : Whole [.bytes bs] := by simp [Whole]

theorem Whole.append {ps qs : List Piece} (hp : Whole ps) (hq : Whole qs) : Whole (ps ++ qs) := by
  intro p mem
  obtain mem | mem := List.mem_append.1 mem
  · exact hp p mem
  · exact hq p mem

theorem Whole.flatMap {α : Type} {f : α → List Piece} {l : List α} (h : ∀ x ∈ l, Whole (f x)) :
    Whole (l.flatMap f) := by
  intro p mem
  obtain ⟨x, hx, mem⟩ := List.mem_flatMap.1 mem
  exact h x hx p mem

theorem join_append {ps : List Piece} (h : Whole ps) (qs : List Piece) :
    join (ps ++ qs) = join ps ++ join qs := by
  induction ps with
  | nil => rfl
  | cons p ps ih =>
    obtain ⟨bs, rfl⟩ := h p List.mem_cons_self
    have rest := ih fun q hq => h q (List.mem_cons_of_mem _ hq)
    rw [List.cons_append, join, join, List.append_assoc, rest]

theorem join_one (bs : Bytes) : join [.bytes bs] = bs := List.append_nil bs

end Piece

/-- Items that are whole are all written into a buffer that grows. -/
theorem emit_none_of_whole {ps : List Piece} (h : Piece.Whole ps) :
    emit none ps = (Piece.join ps, none) := by
  induction ps with
  | nil => rfl
  | cons p ps ih =>
    obtain ⟨bs, rfl⟩ := h p List.mem_cons_self
    have rest := ih fun q hq => h q (List.mem_cons_of_mem _ hq)
    simp [emit, fits, Piece.join, rest]

/-! ## Reading items -/

theorem Decoder.run_take (bs rest : Bytes) :
    (Decoder.take bs.length).run (bs ++ rest) = .ok bs rest := by
  simp [EStateM.run, Decoder.take, splitExactly_eq]

/-- Reading as many bytes as a number takes. -/
theorem Decoder.run_take_littleEndian (k n : ℕ) (rest : Bytes) :
    (Decoder.take k).run (littleEndian k n ++ rest) = .ok (littleEndian k n) rest := by
  have h := Decoder.run_take (littleEndian k n) rest
  rwa [length_littleEndian] at h

theorem Decoder.take_bind {β : Type} (next : Bytes → Decoder β) (bs : Bytes) (ps : List Piece)
    (rest : Bytes) :
    (Decoder.take bs.length >>= next).run (Piece.join (.bytes bs :: ps) ++ rest)
      = (next bs).run (Piece.join ps ++ rest) := by
  rw [EStateM.run_bind, Piece.join, List.append_assoc, Decoder.run_take]

theorem Decoder.run_require (rule : FormatRule) {holds : Bool} (h : holds) (bytes : Bytes) :
    (Decoder.require rule holds).run bytes = .ok () bytes := by
  rw [Decoder.require, if_pos h]
  rfl

theorem Decoder.require_bind {β : Type} (rule : FormatRule) {holds : Bool} (h : holds)
    (next : Unit → Decoder β) (bytes : Bytes) :
    (Decoder.require rule holds >>= next).run bytes = (next ()).run bytes := by
  rw [EStateM.run_bind, Decoder.run_require rule h]

namespace Codec

variable {α β κ : Type}

/-- A value that is written completely, and read back whatever follows. -/
structure Carries (c : Codec α) (x : α) : Prop where
  whole : Piece.Whole (c.pieces x)
  read : ∀ rest, c.read.run (Piece.join (c.pieces x) ++ rest) = .ok x rest

/-- A value that is carried is written completely. -/
theorem encode_of_carries {c : Codec α} {x : α} (h : c.Carries x) :
    c.encode none x = (Piece.join (c.pieces x), none) := emit_none_of_whole h.whole

/-- What follows a value is read from where it ends. -/
theorem Carries.bind {c : Codec α} {x : α} (h : c.Carries x) (next : α → Decoder β)
    (ps : List Piece) (rest : Bytes) :
    (c.read >>= next).run (Piece.join (c.pieces x ++ ps) ++ rest)
      = (next x).run (Piece.join ps ++ rest) := by
  rw [EStateM.run_bind, Piece.join_append h.whole, List.append_assoc, h.read]

/-- What follows a value at the end of the items is read from what follows them. -/
theorem Carries.bind_last {c : Codec α} {x : α} (h : c.Carries x) (next : α → Decoder β)
    (rest : Bytes) :
    (c.read >>= next).run (Piece.join (c.pieces x) ++ rest) = (next x).run rest := by
  rw [EStateM.run_bind, h.read]

/-! ## Numbers and tags -/

theorem carries_number {k : ℕ} {toNat : α → ℕ} {ofNat : ℕ → α} {x : α}
    (small : toNat x < Nat.pow 256 k) (inverse : ofNat (toNat x) = x) :
    (number k toNat ofNat).Carries x := by
  refine ⟨.one _, fun rest => ?_⟩
  simp only [number, Piece.join_one, EStateM.run_bind, Decoder.run_take_littleEndian,
    ofLittleEndian_littleEndian, Nat.mod_eq_of_lt small, inverse]
  rfl

theorem carries_u8 (x : UInt8) : u8.Carries x :=
  carries_number x.toNat_lt UInt8.ofNat_toNat

theorem carries_u16 (x : UInt16) : u16.Carries x :=
  carries_number x.toNat_lt UInt16.ofNat_toNat

theorem carries_u32 (x : UInt32) : u32.Carries x :=
  carries_number x.toNat_lt UInt32.ofNat_toNat

theorem carries_u64 (x : UInt64) : u64.Carries x :=
  carries_number x.toNat_lt UInt64.ofNat_toNat

theorem carries_size {n : ℕ} (small : n < wordRange) : size.Carries n := by
  have same : n % Nat.pow 256 4 = n := Nat.mod_eq_of_lt small
  have pieces : size.pieces n = [.bytes (littleEndian 4 n)] := if_pos small
  refine ⟨by rw [pieces]; exact .one _, fun rest => ?_⟩
  rw [pieces, Piece.join_one]
  simp only [size, EStateM.run_bind, Decoder.run_take_littleEndian, ofLittleEndian_littleEndian,
    same]
  rfl

theorem carries_tagged {type : TaggedType} {tag : α → UInt8} {all : List α} {x : α}
    (first : all.find? (fun y => tag y = tag x) = some x) : (tagged type tag all).Carries x := by
  refine ⟨(carries_u8 (tag x)).whole, fun rest => ?_⟩
  simp only [tagged, EStateM.run_bind, (carries_u8 (tag x)).read, first]
  rfl

theorem carries_bool (b : Bool) : bool.Carries b := carries_tagged (by cases b <;> rfl)

/-! ## Composite forms -/

theorem carries_imap {c : Codec α} {wrap : α → β} {unwrap : β → α} {x : β}
    (h : c.Carries (unwrap x)) (inverse : wrap (unwrap x) = x) :
    (c.imap wrap unwrap).Carries x := by
  refine ⟨h.whole, fun rest => ?_⟩
  simp only [imap, ← bind_pure_comp, EStateM.run_bind, h.read, inverse]
  rfl

theorem carries_filter {c : Codec α} {rule : FormatRule} {holds : α → Bool} {x : α}
    (h : c.Carries x) (kept : holds x) : (c.filter rule holds).Carries x := by
  refine ⟨h.whole, fun rest => ?_⟩
  simp only [filter, EStateM.run_bind, h.read, Decoder.run_require rule kept]
  rfl

theorem carries_pair {c : Codec α} {d : Codec β} {x : α × β} (hc : c.Carries x.1)
    (hd : d.Carries x.2) : (pair c d).Carries x := by
  refine ⟨hc.whole.append hd.whole, fun rest => ?_⟩
  simp only [pair, hc.bind, hd.bind_last]
  rfl

theorem carries_string {s : String} (small : (Utf8.encode s).length < wordRange) :
    string.Carries s := by
  have length := carries_size small
  refine ⟨length.whole.append (.one _), fun rest => ?_⟩
  simp only [string, length.bind, Piece.join_one, EStateM.run_bind, Decoder.run_take,
    Utf8.decode_encode]
  rfl

/-- Values that are carried are read one after the other. -/
theorem run_replicate {c : Codec α} {l : List α} (each : ∀ x ∈ l, c.Carries x) (rest : Bytes) :
    (Decoder.replicate l.length c.read).run (Piece.join (l.flatMap c.pieces) ++ rest)
      = .ok l rest := by
  induction l with
  | nil => rfl
  | cons x l ih =>
    have others := ih fun y hy => each y (List.mem_cons_of_mem x hy)
    simp only [List.flatMap_cons, List.length_cons, Decoder.replicate,
      (each x List.mem_cons_self).bind, EStateM.run_bind, others]
    rfl

theorem carries_list {c : Codec α} {l : List α} (small : l.length < wordRange)
    (each : ∀ x ∈ l, c.Carries x) : (list c).Carries l := by
  have length := carries_size small
  refine ⟨length.whole.append (.flatMap fun x hx => (each x hx).whole), fun rest => ?_⟩
  simp only [list, length.bind, run_replicate each]

/-! ## Maps -/

section

variable [LE κ] [LT κ] [DecidableLT κ] [DecidableEq κ] [Std.IsLinearOrder κ]
  [Std.LawfulOrderLT κ]

omit [DecidableEq κ] in
/-- A key above all others goes to the end. -/
theorem insertEntry_of_lt {k : κ} {v : α} {l : List (κ × α)} (above : ∀ e ∈ l, e.1 < k) :
    insertEntry k v l = l ++ [(k, v)] := by
  induction l with
  | nil => rfl
  | cons e l ih =>
    have lt := above e List.mem_cons_self
    have notLt : ¬ k < e.1 := fun gt => Std.lt_irrefl (Std.lt_trans lt gt)
    rw [insertEntry, if_neg notLt, if_pos lt, ih fun x hx => above x (List.mem_cons_of_mem e hx)]
    rfl

omit [DecidableLT κ] [Std.IsLinearOrder κ] in
/-- A key above all others has no value yet. -/
theorem contains_of_lt {m : OrderedMap κ α} {k : κ} (above : ∀ e ∈ m.entries, e.1 < k) :
    m.contains k = false := by
  have absent : m.entries.find? (fun e => e.1 = k) = none := by
    rw [List.find?_eq_none]
    intro e he same
    exact Std.lt_irrefl (a := k) (of_decide_eq_true same ▸ above e he)
  rw [OrderedMap.contains, OrderedMap.find?, absent]
  rfl

/-- Entries that are carried, and whose keys increase, are read into a map of smaller keys. -/
theorem run_readEntries {c : Codec (κ × α)} {m : OrderedMap κ α} {l : List (κ × α)}
    (each : ∀ e ∈ l, c.Carries e) (done : OrderedMap κ α) (split : m.entries = done.entries ++ l)
    (rest : Bytes) :
    (readEntries c.read l.length done).run (Piece.join (l.flatMap c.pieces) ++ rest)
      = .ok m rest := by
  induction l generalizing done with
  | nil =>
    have same : m = done := OrderedMap.ext (by rw [split, List.append_nil])
    rw [same]
    rfl
  | cons e l ih =>
    have sorted := m.sorted
    rw [split, List.pairwise_append] at sorted
    have above : ∀ x ∈ done.entries, x.1 < e.1 := fun x hx => sorted.2.2 x hx e List.mem_cons_self
    have fresh : (!done.contains e.1) = true := by rw [contains_of_lt above]; rfl
    have inserted : (done.insert e.1 e.2).entries = done.entries ++ [e] := insertEntry_of_lt above
    have others := ih (fun x hx => each x (List.mem_cons_of_mem e hx))
      (done.insert e.1 e.2) (by rw [split, inserted, List.append_assoc]; rfl)
    simp only [List.flatMap_cons, List.length_cons, readEntries, (each e List.mem_cons_self).bind,
      EStateM.run_bind, Decoder.run_require _ fresh, others]

theorem carries_map_of_entries {key : Codec κ} {value : Codec α} {m : OrderedMap κ α}
    (small : m.size < wordRange) (each : ∀ e ∈ m.entries, (pair key value).Carries e) :
    (map key value).Carries m := by
  refine ⟨(carries_list small each).whole, fun rest => ?_⟩
  have length : size.Carries m.entries.length := carries_size small
  simp only [map, list, length.bind]
  exact run_readEntries each .empty rfl rest

theorem carries_map {key : Codec κ} {value : Codec α} {m : OrderedMap κ α}
    (small : m.size < wordRange) (keys : ∀ e ∈ m.entries, key.Carries e.1)
    (values : ∀ e ∈ m.entries, value.Carries e.2) : (map key value).Carries m :=
  carries_map_of_entries small fun e he => carries_pair (keys e he) (values e he)

end

end Codec

end CircuitWitness
