import CircuitWitness.Codec.Standard

/-!
# Source locations

Log entries refer to source locations by number. The table keeps each function and each location
once.

Results:
* `getElem?_internIn`: the number given for an entry leads to it.
-/

namespace CircuitWitness

/-- A function of the circuit's source (`Function`). -/
structure SourceFunction where
  name : String
  file : String
deriving DecidableEq, Repr, Inhabited

/-- A line of a function, which is given by its place in the table (`Location`). -/
structure Location where
  function : UInt32
  line : UInt32
deriving DecidableEq, Repr, Inhabited

/-- Name, then file (`serialize` and `deserialize` of `Function`). -/
def SourceFunction.codec : Codec SourceFunction :=
  (Codec.pair .string .string).imap (fun (name, file) => ⟨name, file⟩) (fun f => (f.name, f.file))

/-- Function, then line (`serialize` and `deserialize` of `Location`). -/
def Location.codec : Codec Location :=
  (Codec.pair .u32 .u32).imap (fun (f, line) => ⟨f, line⟩) (fun l => (l.function, l.line))

/-- The place of an entry in a list, and the list with the entry (each half of `add_location`). -/
def internIn {α : Type} [DecidableEq α] (l : List α) (x : α) : Nat × List α :=
  match l.idxOf? x with
  | some i => (i, l)
  | none => (l.length, l ++ [x])

theorem getElem?_internIn {α : Type} [DecidableEq α] (l : List α) (x : α) :
    (internIn l x).2[(internIn l x).1]? = some x := by
  unfold internIn
  split
  · next i found =>
    obtain ⟨hi, heq, _⟩ := List.findIdx?_eq_some_iff_getElem.1 found
    simpa [List.getElem?_eq_getElem hi] using heq
  · simp

/-- Functions and locations by number (`SymbolTable`). -/
structure SymbolTable where
  functions : List SourceFunction
  locations : List Location
deriving DecidableEq, Repr, Inhabited

namespace SymbolTable

/-- The table without entries (`SymbolTable.default`). -/
def empty : SymbolTable := ⟨[], []⟩

/-- The number of a location, and the table that holds it (`add_location`). -/
def addLocation (t : SymbolTable) (function file : String) (line : UInt32) :
    UInt32 × SymbolTable :=
  let (f, functions) := internIn t.functions ⟨function, file⟩
  let (l, locations) := internIn t.locations ⟨UInt32.ofNat f, line⟩
  (UInt32.ofNat l, ⟨functions, locations⟩)

/-- The lines of one stack frame; nothing if the table does not know it (the loop of
    `format_stack`). -/
def frameText (t : SymbolTable) (id : UInt32) : String :=
  match t.locations[id.toNat]? with
  | none => ""
  | some location =>
    match t.functions[location.function.toNat]? with
    | none => ""
    | some f => "\n" ++ f.name ++ "\n\t" ++ f.file ++ ":" ++ toString location.line.toNat

/-- The frames of a stack (`format_stack`). -/
def stackText (t : SymbolTable) (stack : List UInt32) : String :=
  String.join (stack.map t.frameText)

/-- Whether every location names a function of the table (the check of `deserialize` of
    `SymbolTable`). -/
def wellFormed (t : SymbolTable) : Bool :=
  t.locations.all fun l => l.function.toNat < t.functions.length

/-- Functions, then locations; a location must name a function of the table (`serialize` and
    `deserialize` of `SymbolTable`). -/
def codec : Codec SymbolTable :=
  ((Codec.pair (.list SourceFunction.codec) (.list Location.codec)).imap
    (fun (fs, ls) => ⟨fs, ls⟩) (fun t => (t.functions, t.locations))).filter
      .knownFunctions wellFormed

end SymbolTable

end CircuitWitness
