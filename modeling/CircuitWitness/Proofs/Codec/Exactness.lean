import CircuitWitness.Proofs.Codec.Canonical

/-!
# One writing for each value

A form is exact if the bytes that are read as a value are those that the value is written in, so
that no other bytes are read as it. All forms that are built without maps are exact: a tag, a truth
value, a text or a length has one writing each, and lists, pairs and records add nothing to it.

A map is read from its entries in any order. Since a key that comes again is refused, no entry is
lost: if keys and values are exact, the bytes that are read are those of the entries of the map, in
some order, after their number. They are as many as the map is written in.

Results:
* `MapFree.exact`: a form that is built without maps is exact.
* `Exact.holds_map`: a map with exact keys and values is read from the bytes of its entries.
* `decode_exact`: both, for any form, any keys and values, and any bytes.
-/

namespace CircuitWitness

variable {α β κ : Type}

/-! ## Values that are written completely -/

theorem whole_of_emit {ps : List Piece} (complete : (emit none ps).2 = none) : Piece.Whole ps := by
  induction ps with
  | nil => simp [Piece.Whole]
  | cons p ps ih =>
    cases p with
    | overlong size => cases complete
    | bytes bs => exact List.forall_mem_cons.2 ⟨⟨bs, rfl⟩, ih complete⟩

theorem Piece.join_flatMap {f : α → List Piece} {l : List α} (whole : ∀ x ∈ l, Whole (f x)) :
    join (l.flatMap f) = (l.map fun x => join (f x)).flatten := by
  induction l with
  | nil => rfl
  | cons x l ih =>
    have rest := ih fun y hy => whole y (List.mem_cons_of_mem x hy)
    rw [List.flatMap_cons, join_append (whole x List.mem_cons_self), rest, List.map_cons,
      List.flatten_cons]

namespace Codec

/-- A value is written completely exactly if none of its items is overlong. -/
theorem encode_eq {c : Codec α} {x : α} {written : Bytes} :
    c.encode none x = (written, none) ↔
      Piece.Whole (c.pieces x) ∧ written = Piece.join (c.pieces x) := by
  constructor
  · intro wrote
    have complete : (emit none (c.pieces x)).2 = none := congrArg Prod.snd wrote
    have front : (emit none (c.pieces x)).1 = written := congrArg Prod.fst wrote
    exact ⟨whole_of_emit complete, by rw [← front, emit_none]⟩
  · rintro ⟨whole, rfl⟩
    exact emit_none_of_whole whole

theorem whole_list {c : Codec α} {l : List α} (counted : Piece.Whole (size.pieces l.length))
    (each : ∀ x ∈ l, Piece.Whole (c.pieces x)) : Piece.Whole ((list c).pieces l) :=
  counted.append (.flatMap each)

/-- A list is written as its length and the bytes of its entries. -/
theorem join_list {c : Codec α} {l : List α} (counted : Piece.Whole (size.pieces l.length))
    (each : ∀ x ∈ l, Piece.Whole (c.pieces x)) :
    Piece.join ((list c).pieces l) =
      Piece.join (size.pieces l.length) ++ (l.map fun x => Piece.join (c.pieces x)).flatten := by
  rw [list, Piece.join_append counted, Piece.join_flatMap each]

/-! ## Exact forms -/

/-- A form in which the bytes that are read as a value are those that the value is written in. -/
def Exact (c : Codec α) : Prop :=
  ∀ (bytes rest : Bytes) (x : α), c.decode bytes = .ok x rest →
    ∃ written, c.encode none x = (written, none) ∧ bytes = written ++ rest

theorem Canonical.exact {c : Codec α} (h : c.Canonical) : c.Exact := by
  intro bytes rest x ran
  obtain ⟨carried, same⟩ := h.accepts ran
  exact ⟨_, encode_of_carries carried, same⟩

theorem Exact.accepts {c : Codec α} (h : c.Exact) {bytes rest : Bytes} {x : α}
    (ran : c.read.run bytes = .ok x rest) :
    Piece.Whole (c.pieces x) ∧ bytes = Piece.join (c.pieces x) ++ rest := by
  obtain ⟨written, wrote, rfl⟩ := h bytes rest x ran
  obtain ⟨whole, rfl⟩ := encode_eq.1 wrote
  exact ⟨whole, rfl⟩

theorem exact_pair {c : Codec α} {d : Codec β} (hc : c.Exact) (hd : d.Exact) :
    (pair c d).Exact := by
  intro bytes rest z ran
  obtain ⟨x, after, first, tail⟩ := CircuitWitness.bind_ok.1 ran
  obtain ⟨whole, rfl⟩ := hc.accepts first
  obtain ⟨y, after, second, last⟩ := CircuitWitness.bind_ok.1 tail
  obtain ⟨whole', rfl⟩ := hd.accepts second
  obtain ⟨rfl, rfl⟩ := pure_ok.1 last
  refine ⟨_, encode_eq.2 ⟨whole.append whole', rfl⟩, ?_⟩
  simp only [pair, Piece.join_append whole, List.append_assoc]

/-- The forms of the format that are built without maps. A linear expression is written as the list
    of its terms. -/
inductive MapFree : {α : Type} → Codec α → Prop
  | u8 : MapFree Codec.u8
  | u16 : MapFree Codec.u16
  | u32 : MapFree Codec.u32
  | u64 : MapFree Codec.u64
  | size : MapFree Codec.size
  | bool : MapFree Codec.bool
  | string : MapFree Codec.string
  | term : MapFree Term.codec
  | hint : MapFree HintCall.codec
  | log : MapFree LogEntry.codec
  | function : MapFree SourceFunction.codec
  | location : MapFree Location.codec
  | symbols : MapFree SymbolTable.codec
  | blueprint : MapFree Blueprint.codec
  | kind : MapFree CircuitKind.codec
  | instruction : MapFree Instruction.codec
  | list {α : Type} {c : Codec α} (entries : MapFree c) : MapFree (Codec.list c)
  | pair {α β : Type} {c : Codec α} {d : Codec β} (first : MapFree c) (second : MapFree d) :
      MapFree (Codec.pair c d)

theorem MapFree.canonical {c : Codec α} (h : c.MapFree) : c.Canonical := by
  induction h with
  | u8 => exact canonical_u8
  | u16 => exact canonical_u16
  | u32 => exact canonical_u32
  | u64 => exact canonical_u64
  | size => exact canonical_size
  | bool => exact .tagged ..
  | string => exact canonical_string
  | term => exact Term.canonical
  | hint => exact HintCall.canonical
  | log => exact LogEntry.canonical
  | function => exact SourceFunction.canonical
  | location => exact Location.canonical
  | symbols => exact SymbolTable.canonical
  | blueprint => exact Blueprint.canonical
  | kind => exact CircuitKind.canonical
  | instruction => exact Instruction.canonical
  | list _ ih => exact ih.list
  | pair _ _ ih ih' => exact ih.pair ih'

theorem MapFree.exact {c : Codec α} (h : c.MapFree) : c.Exact := h.canonical.exact

/-! ## Maps -/

section

variable [LE κ] [LT κ] [DecidableLT κ] [DecidableEq κ] [Std.IsLinearOrder κ]
  [Std.LawfulOrderLT κ]

/-- Bytes that hold a map: the number of its entries, then the bytes of its entries in some order.
    They are as many as the map is written in. -/
def HoldsMap (key : Codec κ) (value : Codec α) (m : OrderedMap κ α) (bytes : Bytes) : Prop :=
  ∃ (entries : List (κ × α)) (count : Bytes) (parts : List Bytes) (written : Bytes),
    entries.Perm m.entries ∧
      size.encode none m.size = (count, none) ∧
      entries.map ((pair key value).encode none) = parts.map (·, none) ∧
      bytes = count ++ parts.flatten ∧
      (map key value).encode none m = (written, none) ∧
      bytes.length = written.length

/-- A map with exact keys and values is read from the bytes of its entries. -/
theorem Exact.holds_map {key : Codec κ} {value : Codec α} (hk : key.Exact) (hv : value.Exact)
    {bytes rest : Bytes} {m : OrderedMap κ α} (ran : (map key value).decode bytes = .ok m rest) :
    ∃ consumed, HoldsMap key value m consumed ∧ bytes = consumed ++ rest := by
  have entry := exact_pair hk hv
  obtain ⟨n, after, counted, rfl, tail⟩ := canonical_size.bind_ok ran
  obtain ⟨l, rfl, each, perm, rfl⟩ := readEntries_ok
    (P := fun e => Piece.Whole ((pair key value).pieces e))
    (fun ran => ⟨(entry.accepts ran).1, entry.accepts ran⟩) tail
  have perm : l.Perm m.entries := by simpa [OrderedMap.empty] using perm.symm
  have each' : ∀ e ∈ m.entries, Piece.Whole ((pair key value).pieces e) := fun e he =>
    each e (perm.mem_iff.2 he)
  have whole := whole_list counted.whole each
  have counted' : size.Carries m.entries.length := perm.length_eq ▸ counted
  have joined := join_list counted.whole each
  refine ⟨Piece.join ((list (pair key value)).pieces l), ⟨l, _, _, _, perm, ?_, ?_, joined,
    emit_none_of_whole (whole_list counted'.whole each'), length_join_list perm whole⟩, ?_⟩
  · rw [OrderedMap.size, ← perm.length_eq]
    exact encode_of_carries counted
  · rw [List.map_map]
    exact List.map_congr_left fun e he => emit_none_of_whole (each e he)
  · rw [joined, ← Piece.join_flatMap each, List.append_assoc]

/-- What is read as a value in a form that is built without maps is what the value is written in,
    and what is read as a map with exact keys and values holds that map. -/
theorem decode_exact :
    (∀ {α : Type} {c : Codec α}, c.MapFree → c.Exact) ∧
      ∀ {κ α : Type} [LE κ] [LT κ] [DecidableLT κ] [DecidableEq κ] [Std.IsLinearOrder κ]
        [Std.LawfulOrderLT κ] {key : Codec κ} {value : Codec α}, key.Exact → value.Exact →
        ∀ (bytes rest : Bytes) (m : OrderedMap κ α), (map key value).decode bytes = .ok m rest →
          ∃ consumed, HoldsMap key value m consumed ∧ bytes = consumed ++ rest :=
  ⟨MapFree.exact, fun hk hv _ _ _ ran => hk.holds_map hv ran⟩

/-- The bytes of two texts by number, the larger number first, and a byte after them. -/
def unorderedBytes : Bytes :=
  [2, 0, 0, 0, 7, 0, 0, 0, 1, 0, 0, 0, 0x78, 3, 0, 0, 0, 0, 0, 0, 0, 9]

theorem decode_unorderedBytes_exact :
    let m : OrderedMap UInt32 String := (OrderedMap.empty.insert 7 "x").insert 3 ""
    let l : List (UInt16 × Bool) := [(7, false), (256, false)]
    ((map .u32 .string).decode unorderedBytes = .ok m [9] ∧
      ∃ consumed, HoldsMap .u32 .string m consumed ∧ unorderedBytes = consumed ++ [9]) ∧
    (list (.pair .u16 .bool)).decode unorderedBytes = .ok l (unorderedBytes.drop 10) ∧
      ∃ written, (list (.pair .u16 .bool)).encode none l = (written, none) ∧
        unorderedBytes = written ++ unorderedBytes.drop 10 := by
  refine ⟨⟨rfl, ?_⟩, rfl, ?_⟩
  · exact decode_exact.2 (decode_exact.1 .u32) (decode_exact.1 .string) _ _ _ rfl
  · exact decode_exact.1 (.list (.pair .u16 .bool)) _ _ _ rfl

end

end Codec

end CircuitWitness
