import CircuitWitness.Proofs.Codec.Truncation

/-!
# Every form of the format

The format has forms for numbers, truth values, texts and the records of a circuit, and lists, pairs
and maps of whatever it has a form for; a linear expression is written as the list of its terms. A
value in such a form is self-delimiting: it is read back exactly, whatever bytes follow, which are
left as they are; and no part of its bytes that lacks the end is read as anything.

Both are shown by induction on how the form is built. A value has a form if every length in it fits
into a word, and if locations name functions of their table.

Results:
* `Format.carries`: a form reads back the values that it is for.
* `Format.steady`: a form is steady, so that cut values lack bytes.
* `Format.self_delimiting`: each value is read back from its bytes, and from no fewer.
-/

namespace CircuitWitness.Codec

/-- The forms of the format, each with the values that it is for. -/
inductive Format : {α : Type} → Codec α → (α → Prop) → Prop
  | u8 : Format Codec.u8 fun _ => True
  | u16 : Format Codec.u16 fun _ => True
  | u32 : Format Codec.u32 fun _ => True
  | u64 : Format Codec.u64 fun _ => True
  | size : Format Codec.size (· < wordRange)
  | bool : Format Codec.bool fun _ => True
  | string : Format Codec.string TextFits
  | term : Format Term.codec fun _ => True
  | hint : Format HintCall.codec HintCall.Fits
  | log : Format LogEntry.codec LogEntry.Fits
  | function : Format SourceFunction.codec fun f => TextFits f.name ∧ TextFits f.file
  | location : Format Location.codec fun _ => True
  | symbols : Format SymbolTable.codec fun t => t.Fits ∧ t.wellFormed
  | blueprint : Format Blueprint.codec fun _ => True
  | kind : Format CircuitKind.codec fun _ => True
  | instruction : Format Instruction.codec fun _ => True
  | list {α : Type} {c : Codec α} {fits : α → Prop} (entries : Format c fits) :
      Format (Codec.list c) fun l => l.length < wordRange ∧ ∀ x ∈ l, fits x
  | pair {α β : Type} {c : Codec α} {d : Codec β} {fits : α → Prop} {fits' : β → Prop}
      (first : Format c fits) (second : Format d fits') :
      Format (Codec.pair c d) fun x => fits x.1 ∧ fits' x.2
  | map {κ α : Type} [LE κ] [LT κ] [DecidableLT κ] [DecidableEq κ] [Std.IsLinearOrder κ]
      [Std.LawfulOrderLT κ] {key : Codec κ} {value : Codec α} {fits : κ → Prop} {fits' : α → Prop}
      (keys : Format key fits) (values : Format value fits') :
      Format (Codec.map key value) fun m =>
        m.size < wordRange ∧ ∀ e ∈ m.entries, fits e.1 ∧ fits' e.2

variable {α : Type} {c : Codec α} {fits : α → Prop}

/-- A form carries the values that it is for. -/
theorem Format.carries (h : c.Format fits) {x : α} (hx : fits x) : c.Carries x := by
  induction h with
  | u8 => exact carries_u8 x
  | u16 => exact carries_u16 x
  | u32 => exact carries_u32 x
  | u64 => exact carries_u64 x
  | size => exact carries_size hx
  | bool => exact carries_bool x
  | string => exact carries_string hx
  | term => exact x.carries
  | hint => exact HintCall.carries hx
  | log => exact LogEntry.carries hx
  | function => exact SourceFunction.carries hx.1 hx.2
  | location => exact x.carries
  | symbols => exact SymbolTable.carries hx.1 hx.2
  | blueprint => exact x.carries
  | kind => exact x.carries
  | instruction => exact x.carries
  | list _ ih => exact carries_list hx.1 fun y hy => ih (hx.2 y hy)
  | pair _ _ ih ih' => exact carries_pair (ih hx.1) (ih' hx.2)
  | map _ _ ih ih' =>
    exact carries_map hx.1 (fun e he => ih (hx.2 e he).1) fun e he => ih' (hx.2 e he).2

/-- Every form is steady. -/
theorem Format.steady (h : c.Format fits) : c.read.Steady := by
  induction h with
  | u8 | u16 | u32 | u64 => exact steady_number ..
  | size => exact steady_size
  | bool | blueprint | kind => exact steady_tagged ..
  | string => exact steady_string
  | term => exact Term.steady
  | hint => exact HintCall.steady
  | log => exact LogEntry.steady
  | function => exact SourceFunction.steady
  | location => exact Location.steady
  | symbols => exact SymbolTable.steady
  | instruction => exact Instruction.steady
  | list _ ih => exact steady_list ih
  | pair _ _ ih ih' => exact steady_pair ih ih'
  | map _ _ ih ih' => exact steady_map ih ih'

/-- Every value that a form of the format is for is written completely. From its bytes it is read
    back exactly, whatever follows them; a front part of them that lacks some is refused for that
    reason. -/
theorem Format.self_delimiting (h : c.Format fits) {x : α} (hx : fits x) :
    ∃ bytes, c.encode none x = (bytes, none) ∧
      (∀ rest, c.decode (bytes ++ rest) = .ok x rest) ∧
      ∀ cut, cut <+: bytes → cut ≠ bytes → ∃ left, c.decode cut = .error .endOfInput left := by
  have carried := h.carries hx
  exact ⟨Piece.join (c.pieces x), encode_of_carries carried, carried.read,
    fun cut front short => carried.decode_cut h.steady front short⟩

/-- Texts by number, each with the terms of two expressions. -/
def sampleEntries : OrderedMap UInt32 (String × List (List Term)) :=
  ((OrderedMap.empty.insert 7 ("χ", [[⟨1, 2⟩, ⟨4, 3⟩], []])).insert 3 ("", [])).insert 9 ("y", [[]])

theorem sampleEntries_self_delimiting :
    let codec := Codec.map .u32 (.pair .string (.list (.list Term.codec)))
    ∃ bytes, codec.encode none sampleEntries = (bytes, none) ∧
      (∀ rest, codec.decode (bytes ++ rest) = .ok sampleEntries rest) ∧
      ∀ cut, cut <+: bytes → cut ≠ bytes → ∃ left, codec.decode cut = .error .endOfInput left := by
  refine Format.self_delimiting (.map .u32 (.pair .string (.list (.list .term)))) ?_
  decide +kernel

end CircuitWitness.Codec
