import CircuitWitness.Proofs.Circuit.Persistence
import CircuitWitness.Proofs.Codec.Format
import CircuitWitness.Solver.Solution

/-!
# Writing into a buffer with little room

The items of a value are its integers, the bytes of its texts, its field elements and the magic
bytes of a circuit; the modulus in the header is a list of one-byte integers. A buffer takes an item
whole or not at all. So a value is written completely if the buffer has room for all its items;
otherwise the items before the first that does not fit are written, and nothing of this one.

Which items a value has is given by how its form is built, and shown for every form of the format,
for lists of field elements, for solutions and for circuits. A value has items if its lengths and
counts fit into words; nothing else is asked of it, since also a value that would not be read back
can be written.

Results:
* `Items.pieces_eq`: what is written of a value are its items.
* `emit_of_le`, `emit_of_lt`: items are written up to the first that does not fit.
* `Encodable.hasItems`: every value whose lengths and counts fit into words has items.
* `Encodable.encode_bounded`: how every such value is written into a buffer of any room.
-/

namespace CircuitWitness

/-! ## Items -/

/-- What is written as a whole. -/
inductive Item where
  | integer (width value : ℕ)
  | text (s : String)
  | element (F : PrimeField) (x : F.Elem)
  | magic

namespace Item

/-- The bytes of an item. -/
def bytes : Item → Bytes
  | .integer width value => littleEndian width value
  | .text s => Utf8.encode s
  | .element F x => littleEndian F.byteLen x.val
  | .magic => Circuit.magic

/-- The bytes of items in a row. -/
def row (items : List Item) : Bytes := items.flatMap bytes

@[simp] theorem row_nil : row [] = [] := rfl

@[simp] theorem row_cons (i : Item) (items : List Item) : row (i :: items) = i.bytes ++ row items :=
  rfl

@[simp] theorem row_append (items items' : List Item) :
    row (items ++ items') = row items ++ row items' := List.flatMap_append

/-- The written form of items. -/
def pieces (items : List Item) : List Piece := items.map fun i => .bytes i.bytes

theorem pieces_append (items items' : List Item) :
    pieces (items ++ items') = pieces items ++ pieces items' := List.map_append

theorem whole_pieces (items : List Item) : Piece.Whole (pieces items) := by
  intro p mem
  obtain ⟨i, -, rfl⟩ := List.mem_map.1 mem
  exact ⟨_, rfl⟩

theorem join_pieces (items : List Item) : Piece.join (pieces items) = row items := by
  induction items with
  | nil => rfl
  | cons i items ih => simpa [pieces, Piece.join] using ih

end Item

/-! ## Buffers -/

section

open Item

variable {items : List Item} {room : ℕ}

theorem emit_cons_of_le {i : Item} {written : Bytes} {failure : Option EncodeError}
    (enough : i.bytes.length ≤ room)
    (rest : emit (some (room - i.bytes.length)) (pieces items) = (written, failure)) :
    emit (some room) (pieces (i :: items)) = (i.bytes ++ written, failure) := by
  have taken : fits (some room) i.bytes.length = true := decide_eq_true enough
  rw [pieces, List.map_cons, emit, if_pos taken]
  exact congrArg (fun r => (i.bytes ++ r.1, r.2)) rest

theorem emit_cons_of_lt {i : Item} (short : room < i.bytes.length) :
    emit (some room) (pieces (i :: items)) = ([], some .bufferFull) := by
  have refused : ¬ fits (some room) i.bytes.length = true := by simp [fits, short]
  rw [pieces, List.map_cons, emit, if_neg refused]

/-- Items for which there is room are written. -/
theorem emit_of_le (enough : (row items).length ≤ room) :
    emit (some room) (pieces items) = (row items, none) := by
  induction items generalizing room with
  | nil => rfl
  | cons i items ih =>
    rw [row_cons, List.length_append] at enough
    exact emit_cons_of_le (by omega) (ih (by omega))

/-- If there is no room for all items, those before the first that does not fit are written. -/
theorem emit_of_lt (short : room < (row items).length) :
    ∃ before next after, items = before ++ next :: after ∧
      emit (some room) (pieces items) = (row before, some .bufferFull) ∧
      (row before).length ≤ room ∧ room < (row before).length + next.bytes.length := by
  induction items generalizing room with
  | nil => simp at short
  | cons i items ih =>
    rw [row_cons, List.length_append] at short
    obtain first | first := Nat.lt_or_ge room i.bytes.length
    · exact ⟨[], i, items, rfl, emit_cons_of_lt first, by simp, by simpa using first⟩
    · have left : room - i.bytes.length < (row items).length := by omega
      obtain ⟨before, next, after, rfl, rest, enough, stop⟩ := ih left
      refine ⟨i :: before, next, after, rfl, emit_cons_of_le first rest, ?_, ?_⟩
      · rw [row_cons, List.length_append]
        omega
      · rw [row_cons, List.length_append]
        omega

end

namespace Codec

/-! ## The items of a value -/

/-- The items of a value, by how its form is built. -/
inductive Items : {α : Type} → Codec α → α → List Item → Prop
  | number {α : Type} {k : ℕ} {toNat : α → ℕ} {ofNat : ℕ → α} (x : α) :
      Items (number k toNat ofNat) x [.integer k (toNat x)]
  | size {n : ℕ} (small : n < wordRange) : Items size n [.integer 4 n]
  | tagged {α : Type} {type : TaggedType} {tag : α → UInt8} {all : List α} (x : α) :
      Items (tagged type tag all) x [.integer 1 (tag x).toNat]
  | string {s : String} (small : TextFits s) :
      Items string s [.integer 4 (Utf8.encode s).length, .text s]
  | list {α : Type} {c : Codec α} {l : List α} {part : α → List Item}
      (small : l.length < wordRange) (each : ∀ x ∈ l, Items c x (part x)) :
      Items (list c) l (.integer 4 l.length :: l.flatMap part)
  | pair {α β : Type} {c : Codec α} {d : Codec β} {x : α × β} {first second : List Item}
      (left : Items c x.1 first) (right : Items d x.2 second) :
      Items (pair c d) x (first ++ second)
  | map {κ α : Type} [LE κ] [LT κ] [DecidableLT κ] [DecidableEq κ] [Std.IsLinearOrder κ]
      [Std.LawfulOrderLT κ] {key : Codec κ} {value : Codec α} {m : OrderedMap κ α}
      {items : List Item} (entries : Items (.list (.pair key value)) m.entries items) :
      Items (map key value) m items
  | imap {α β : Type} {c : Codec α} {wrap : α → β} {unwrap : β → α} {x : β} {items : List Item}
      (unwrapped : Items c (unwrap x) items) : Items (c.imap wrap unwrap) x items
  | filter {α : Type} {c : Codec α} {rule : FormatRule} {holds : α → Bool} {x : α}
      {items : List Item} (any : Items c x items) : Items (c.filter rule holds) x items
  | element {F : PrimeField} (x : F.Elem) : Items F.elemCodec x [.element F x]
  | elements {F : PrimeField} {l : List F.Elem} {items : List Item}
      (each : Items (.list F.elemCodec) l items) : Items F.elemsCodec l items
  | header {F : PrimeField} {items : List Item}
      (digits : Items (.list u8) (littleEndian F.byteLen F.modulus) items) :
      Items F.headerCodec () items
  | circuit {F : PrimeField} {c : Circuit F} {version kind header coeffs blueprints instructions
      callData publicNames secretNames internalCount constraintCount schedule descriptions
      descriptionOf logs symbols hintNames : List Item}
      (version_items : Items u32 Circuit.version version)
      (kind_items : Items CircuitKind.codec c.kind kind)
      (header_items : Items F.headerCodec () header)
      (coeffs_items : Items F.elemsCodec c.coeffs.toList coeffs)
      (blueprints_items : Items (.list Blueprint.codec) c.blueprints blueprints)
      (instructions_items : Items (.list Instruction.codec) c.instructions instructions)
      (callData_items : Items (.list u32) c.callData callData)
      (publicNames_items : Items (.list .string) c.publicNames publicNames)
      (secretNames_items : Items (.list .string) c.secretNames secretNames)
      (internalCount_items : Items .size c.internalCount internalCount)
      (constraintCount_items : Items .size c.constraintCount constraintCount)
      (schedule_items : Items (.list (.list u32)) c.levels.schedule schedule)
      (descriptions_items : Items (.list LogEntry.codec) c.descriptions descriptions)
      (descriptionOf_items : Items (.map u32 u32) c.descriptionOf descriptionOf)
      (logs_items : Items (.list LogEntry.codec) c.logs logs)
      (symbols_items : Items SymbolTable.codec c.symbols symbols)
      (hintNames_items : Items (.map u32 .string) c.hintNames hintNames) :
      Items (Circuit.codec F) c ([.magic] ++ version ++ kind ++ header ++ coeffs ++ blueprints
        ++ instructions ++ callData ++ publicNames ++ secretNames ++ internalCount
        ++ constraintCount ++ schedule ++ descriptions ++ descriptionOf ++ logs ++ symbols
        ++ hintNames)

variable {α β κ : Type}

theorem pieces_size {n : ℕ} (small : n < wordRange) :
    size.pieces n = [.bytes (littleEndian 4 n)] := if_pos small

theorem pieces_list (c : Codec α) (l : List α) :
    (list c).pieces l = size.pieces l.length ++ l.flatMap c.pieces := rfl

/-- What is written of a value are its items. -/
theorem Items.pieces_eq {c : Codec α} {x : α} {items : List Item} (h : c.Items x items) :
    c.pieces x = Item.pieces items := by
  induction h with
  | number | tagged | element => rfl
  | size small => exact pieces_size small
  | string small => exact congrArg (· ++ _) (pieces_size small)
  | list small _ ih =>
    rw [pieces_list, pieces_size small, Item.pieces, List.map_cons, List.map_flatMap]
    exact congrArg _ (List.flatMap_congr ih)
  | pair _ _ ih ih' =>
    rw [Item.pieces_append, ← ih, ← ih']
    rfl
  | map _ ih | imap _ ih | filter _ ih | elements _ ih | header _ ih => exact ih
  | circuit _ _ _ _ _ _ _ _ _ _ _ _ _ _ _ _ _ version kind header coeffs blueprints instructions
      callData publicNames secretNames internalCount constraintCount schedule descriptions
      descriptionOf logs symbols hintNames =>
    simp only [Item.pieces_append, ← version, ← kind, ← header, ← coeffs, ← blueprints,
      ← instructions, ← callData, ← publicNames, ← secretNames, ← internalCount, ← constraintCount,
      ← schedule, ← descriptions, ← descriptionOf, ← logs, ← symbols, ← hintNames]
    rfl

/-! ## Values whose lengths fit into words -/

/-- A value of which each part has items, so that it can be written. -/
def HasItems (c : Codec α) (x : α) : Prop := ∃ items, c.Items x items

namespace HasItems

theorem number {k : ℕ} {toNat : α → ℕ} {ofNat : ℕ → α} {x : α} :
    (number k toNat ofNat).HasItems x := ⟨_, .number x⟩

theorem size {n : ℕ} (small : n < wordRange) : size.HasItems n := ⟨_, .size small⟩

theorem tagged {type : TaggedType} {tag : α → UInt8} {all : List α} {x : α} :
    (tagged type tag all).HasItems x := ⟨_, .tagged x⟩

theorem string {s : String} (small : TextFits s) : string.HasItems s := ⟨_, .string small⟩

theorem list {c : Codec α} {l : List α} (small : l.length < wordRange)
    (each : ∀ x ∈ l, c.HasItems x) : (list c).HasItems l := by
  choose! part items using each
  exact ⟨_, .list small items⟩

theorem pair {c : Codec α} {d : Codec β} {x : α × β} (left : c.HasItems x.1)
    (right : d.HasItems x.2) : (pair c d).HasItems x := by
  obtain ⟨first, left⟩ := left
  obtain ⟨second, right⟩ := right
  exact ⟨_, left.pair right⟩

theorem map [LE κ] [LT κ] [DecidableLT κ] [DecidableEq κ] [Std.IsLinearOrder κ]
    [Std.LawfulOrderLT κ] {key : Codec κ} {value : Codec α} {m : OrderedMap κ α}
    (small : m.size < wordRange) (keys : ∀ e ∈ m.entries, key.HasItems e.1)
    (values : ∀ e ∈ m.entries, value.HasItems e.2) : (map key value).HasItems m := by
  obtain ⟨items, entries⟩ := list small fun e he => pair (keys e he) (values e he)
  exact ⟨items, .map entries⟩

theorem imap {c : Codec α} {wrap : α → β} {unwrap : β → α} {x : β}
    (h : c.HasItems (unwrap x)) : (c.imap wrap unwrap).HasItems x := by
  obtain ⟨items, unwrapped⟩ := h
  exact ⟨items, .imap unwrapped⟩

theorem filter {c : Codec α} {rule : FormatRule} {holds : α → Bool} {x : α} (h : c.HasItems x) :
    (c.filter rule holds).HasItems x := by
  obtain ⟨items, any⟩ := h
  exact ⟨items, .filter any⟩

theorem elements {F : PrimeField} {l : List F.Elem} (small : l.length < wordRange) :
    F.elemsCodec.HasItems l := by
  obtain ⟨items, each⟩ := list small fun x _ => ⟨_, .element x⟩
  exact ⟨items, .elements each⟩

theorem header {F : PrimeField} (small : F.byteLen < wordRange) : F.headerCodec.HasItems () := by
  obtain ⟨items, digits⟩ : (Codec.list u8).HasItems (littleEndian F.byteLen F.modulus) :=
    list (by rwa [length_littleEndian]) fun _ _ => number
  exact ⟨items, .header digits⟩

theorem words {l : List UInt32} (small : l.length < wordRange) : (Codec.list u32).HasItems l :=
  list small fun _ _ => number

theorem term (t : Term) : Term.codec.HasItems t := imap (pair number number)

theorem exprs {l : List LinearExpr} (small : l.length < wordRange)
    (each : ∀ x ∈ l, x.length < wordRange) : (Codec.list (.list Term.codec)).HasItems l :=
  list small fun x hx => list (each x hx) fun t _ => term t

theorem location (l : Location) : Location.codec.HasItems l := imap (pair number number)

theorem instruction (i : Instruction) : Instruction.codec.HasItems i :=
  imap (pair number (pair number number))

theorem function {f : SourceFunction} (name : TextFits f.name) (file : TextFits f.file) :
    SourceFunction.codec.HasItems f := imap (pair (string name) (string file))

theorem hint {h : HintCall} (fits : h.Fits) : HintCall.codec.HasItems h :=
  imap (pair number (pair (exprs fits.inputs.1 fits.inputs.2) (words fits.outputs)))

theorem log {e : LogEntry} (fits : e.Fits) : LogEntry.codec.HasItems e :=
  imap (pair (string fits.caller) (pair (string fits.format)
    (pair (exprs fits.exprs.1 fits.exprs.2) (words fits.stack))))

theorem symbols {t : SymbolTable} (fits : t.Fits) : SymbolTable.codec.HasItems t :=
  filter (imap (pair
    (list fits.functions fun f hf => function (fits.names f hf).1 (fits.names f hf).2)
    (list fits.locations fun l _ => location l)))

theorem columns {F : PrimeField} {x : List F.Elem × List F.Elem × List F.Elem × List F.Elem}
    (first : x.1.length < wordRange) (second : x.2.1.length < wordRange)
    (third : x.2.2.1.length < wordRange) (fourth : x.2.2.2.length < wordRange) :
    (fourColumns F).HasItems x :=
  pair (elements first) (pair (elements second) (pair (elements third) (elements fourth)))

/-- A circuit whose lengths and counts fit into words has items. -/
theorem circuit {F : PrimeField} {c : Circuit F} (fits : c.Fits) :
    (Circuit.codec F).HasItems c := by
  obtain ⟨_, header⟩ := header fits.modulus
  obtain ⟨_, coeffs⟩ := elements fits.coeffs
  obtain ⟨_, blueprints⟩ := list fits.blueprints fun _ _ => tagged
  obtain ⟨_, instructions⟩ := list fits.instructions fun i _ => instruction i
  obtain ⟨_, callData⟩ := words fits.callData
  obtain ⟨_, publicNames⟩ := list fits.publicNames.1 fun s hs => string (fits.publicNames.2 s hs)
  obtain ⟨_, secretNames⟩ := list fits.secretNames.1 fun s hs => string (fits.secretNames.2 s hs)
  obtain ⟨_, schedule⟩ := list fits.schedule.1 fun l hl => words (fits.schedule.2 l hl)
  obtain ⟨_, descriptions⟩ := list fits.descriptions.1 fun e he => log (fits.descriptions.2 e he)
  obtain ⟨_, descriptionOf⟩ := map fits.descriptionOf (fun _ _ => number) fun _ _ => number
  obtain ⟨_, logs⟩ := list fits.logs.1 fun e he => log (fits.logs.2 e he)
  obtain ⟨_, symbols⟩ := symbols fits.symbols
  obtain ⟨_, hintNames⟩ := map fits.hintNames.1 (fun _ _ => number) fun e he =>
    string (fits.hintNames.2 e he)
  exact ⟨_, .circuit (.number _) (.tagged _) header coeffs blueprints instructions callData
    publicNames secretNames (.size fits.internalCount) (.size fits.constraintCount) schedule
    descriptions descriptionOf logs symbols hintNames⟩

end HasItems

theorem Format.hasItems {c : Codec α} {fits : α → Prop} (h : c.Format fits) {x : α} (hx : fits x) :
    c.HasItems x := by
  induction h with
  | u8 | u16 | u32 | u64 => exact .number
  | size => exact .size hx
  | bool | blueprint | kind => exact .tagged
  | string => exact .string hx
  | term => exact .term x
  | hint => exact .hint hx
  | log => exact .log hx
  | function => exact .function hx.1 hx.2
  | location => exact .location x
  | symbols => exact .symbols hx.1
  | instruction => exact .instruction x
  | list _ ih => exact .list hx.1 fun y hy => ih (hx.2 y hy)
  | pair _ _ ih ih' => exact .pair (ih hx.1) (ih' hx.2)
  | map _ _ ih ih' => exact .map hx.1 (fun e he => ih (hx.2 e he).1) fun e he => ih' (hx.2 e he).2

/-- The values that can be written: those of the forms of the format, with any locations, field
    elements and lists of them, solutions and circuits, and what is composed of them, as far as
    lengths and counts fit into words. -/
inductive Encodable : {α : Type} → Codec α → α → Prop
  | form {α : Type} {c : Codec α} {fits : α → Prop} {x : α} (h : Format c fits) (hx : fits x) :
      Encodable c x
  | symbols {t : SymbolTable} (fits : t.Fits) : Encodable SymbolTable.codec t
  | element {F : PrimeField} (x : F.Elem) : Encodable F.elemCodec x
  | elements {F : PrimeField} {l : List F.Elem} (small : l.length < wordRange) :
      Encodable F.elemsCodec l
  | r1csSolution {F : PrimeField} {s : R1csSolution F} (w : s.w.length < wordRange)
      (a : s.a.length < wordRange) (b : s.b.length < wordRange) (c : s.c.length < wordRange) :
      Encodable (R1csSolution.codec F) s
  | sparseSolution {F : PrimeField} {s : SparseSolution F} (w : s.w.length < wordRange)
      (l : s.l.length < wordRange) (r : s.r.length < wordRange) (o : s.o.length < wordRange) :
      Encodable (SparseSolution.codec F) s
  | circuit {F : PrimeField} {c : Circuit F} (fits : c.Fits) : Encodable (Circuit.codec F) c
  | list {α : Type} {c : Codec α} {l : List α} (small : l.length < wordRange)
      (each : ∀ x ∈ l, Encodable c x) : Encodable (Codec.list c) l
  | pair {α β : Type} {c : Codec α} {d : Codec β} {x : α × β} (left : Encodable c x.1)
      (right : Encodable d x.2) : Encodable (Codec.pair c d) x
  | map {κ α : Type} [LE κ] [LT κ] [DecidableLT κ] [DecidableEq κ] [Std.IsLinearOrder κ]
      [Std.LawfulOrderLT κ] {key : Codec κ} {value : Codec α} {m : OrderedMap κ α}
      (small : m.size < wordRange) (keys : ∀ e ∈ m.entries, Encodable key e.1)
      (values : ∀ e ∈ m.entries, Encodable value e.2) : Encodable (Codec.map key value) m

theorem Encodable.hasItems {c : Codec α} {x : α} (h : c.Encodable x) : c.HasItems x := by
  induction h with
  | form h hx => exact h.hasItems hx
  | symbols fits => exact .symbols fits
  | element x => exact ⟨_, .element x⟩
  | elements small => exact .elements small
  | r1csSolution w a b c => exact .imap (.columns w a b c)
  | sparseSolution w l r o => exact .imap (.columns w l r o)
  | circuit fits => exact .circuit fits
  | list small _ ih => exact .list small ih
  | pair _ _ ih ih' => exact .pair ih ih'
  | map small _ _ ih ih' => exact .map small ih ih'

/-! ## Any room -/

/-- Every value that can be written consists of items, of which a buffer takes as many as there is
    room for: it is written completely exactly if there is room for all of them, and otherwise up to
    the first that does not fit, with the failure that the buffer is full. -/
theorem Encodable.encode_bounded {c : Codec α} {x : α} (h : c.Encodable x) :
    ∃ items, c.Items x items ∧ c.encode none x = (Item.row items, none) ∧ ∀ room : ℕ,
      ((c.encode (some room) x).2 = none ↔ (Item.row items).length ≤ room) ∧
      ((Item.row items).length ≤ room → c.encode (some room) x = (Item.row items, none)) ∧
      (room < (Item.row items).length → ∃ before next after, items = before ++ next :: after ∧
        c.encode (some room) x = (Item.row before, some .bufferFull) ∧
        (Item.row before).length ≤ room ∧ room < (Item.row before).length + next.bytes.length ∧
        Item.row before <+: Item.row items ∧ Item.row before ≠ Item.row items) := by
  obtain ⟨items, consists⟩ := h.hasItems
  have written (room : Option ℕ) : c.encode room x = emit room (Item.pieces items) := by
    rw [encode, consists.pieces_eq]
  refine ⟨items, consists, ?_, fun room => ?_⟩
  · rw [written, emit_none_of_whole (Item.whole_pieces items), Item.join_pieces]
  rw [written]
  refine ⟨⟨fun complete => ?_, fun enough => by rw [emit_of_le enough]⟩, emit_of_le,
    fun short => ?_⟩
  · by_contra short
    obtain ⟨before, next, after, -, full, -⟩ := emit_of_lt (Nat.lt_of_not_le short)
    rw [full] at complete
    cases complete
  · obtain ⟨before, next, after, rfl, full, enough, stop⟩ := emit_of_lt short
    refine ⟨before, next, after, rfl, full, enough, stop, ?_, fun same => ?_⟩
    · rw [Item.row_append]
      exact List.prefix_append _ _
    · rw [← same] at short
      exact absurd short (Nat.not_lt.2 enough)

/-- In a buffer of ten bytes there is no room for the length of the modulus. -/
theorem describedCircuit_cut :
    ∃ items, (Circuit.codec .tiny).Items Circuit.describedCircuit items ∧
      10 < (Item.row items).length ∧ ∃ before next after, items = before ++ next :: after ∧
        (Circuit.codec .tiny).encode (some 10) Circuit.describedCircuit
          = (Item.row before, some .bufferFull) ∧
        Item.row before = Circuit.magic ++ [1, 0, 0, 0, 0] := by
  have fits : Circuit.describedCircuit.Fits := by decide +kernel
  have wrote : (Circuit.codec .tiny).encode (some 10) Circuit.describedCircuit
      = (Circuit.magic ++ [1, 0, 0, 0, 0], some .bufferFull) := by decide +kernel
  obtain ⟨items, consists, -, bounded⟩ := Encodable.encode_bounded (.circuit fits)
  obtain ⟨complete, -, cut⟩ := bounded 10
  have short : 10 < (Item.row items).length := by
    by_contra enough
    have completed := complete.2 (Nat.le_of_not_lt enough)
    rw [wrote] at completed
    cases completed
  obtain ⟨before, next, after, split, full, -⟩ := cut short
  refine ⟨items, consists, short, before, next, after, split, full, ?_⟩
  exact congrArg Prod.fst (full.symm.trans wrote)

end Codec

end CircuitWitness
