import CircuitWitness.Constraint.Term
import CircuitWitness.Hint.Keccak
import CircuitWitness.Text.Quoted

/-!
# Hints

A hint computes wire values outside of the constraints, on natural numbers. It is known by its
name; a system refers to it by the first four bytes of the Keccak-256 digest of the name. The
number of outputs of a hint function is part of its type.

Results:
* `find?_register`: a registered name answers for its id, other ids are not touched.
-/

namespace CircuitWitness

/-- The id of a hint, from its name (`HintId`). -/
abbrev HintId := UInt32

/-- The number with the given bytes, highest first. -/
def ofBigEndian (bytes : List UInt8) : Nat := bytes.foldl (fun n b => 256 * n + b.toNat) 0

/-- The id of a hint, from its name (`hint_id`). -/
def hintId (name : String) : HintId :=
  UInt32.ofNat (ofBigEndian ((Keccak.digest (Utf8.encode name)).take 4))

/-! ## Calls -/

/-- One use of a hint in a system: what it reads and which wires it sets (`HintMapping`). -/
structure HintCall where
  hint : HintId
  inputs : List LinearExpr
  outputs : List WireId
deriving DecidableEq, Repr, Inhabited

namespace HintCall

/-- The call of zeros (`HintMapping.default`, to which `clear` resets). -/
def empty : HintCall := ⟨0, [], []⟩

/-- All input terms. -/
def terms (h : HintCall) : List Term := h.inputs.flatten

/-- Hint, inputs, outputs (`serialize` and `deserialize` of `HintMapping`). -/
def codec : Codec HintCall :=
  (Codec.pair .u32 (.pair (.list (.list Term.codec)) (.list .u32))).imap
    (fun (hint, inputs, outputs) => ⟨hint, inputs, outputs⟩)
    (fun h => (h.hint, h.inputs, h.outputs))

end HintCall

/-! ## Functions -/

/-- A hint function gets the modulus of the field, the inputs and the outputs as they stand, and
    gives the outputs or says why it cannot (`Hint`, with its `call`). -/
structure HintFunction where
  call : (modulus : Nat) → (inputs : List Nat) → (n : Nat) → Vector Nat n →
    Except String (Vector Nat n)

/-- The outputs of a call that starts from zeros (the call in `solve_with_hint`). -/
def HintFunction.outputs (f : HintFunction) (modulus : Nat) (inputs : List Nat) (n : Nat) :
    Except String (List Nat) :=
  (f.call modulus inputs n (Vector.replicate n 0)).map Vector.toList

/-- A hint function with its name (the `Entry` of a `HintRegistry`). -/
structure NamedHint where
  name : String
  function : HintFunction

/-! ## Registries -/

/-- The hint functions that a solver may call, by id (`HintRegistry`). -/
structure HintRegistry where
  hints : OrderedMap HintId NamedHint

namespace HintRegistry

/-- The registry without hints (`HintRegistry.new`). -/
def empty : HintRegistry := ⟨.empty⟩

instance : Inhabited HintRegistry := ⟨empty⟩

/-- Registers a function under a name, in place of any with the same id (`register`,
    `register_arc`). -/
def register (r : HintRegistry) (name : String) (f : HintFunction) : HintRegistry :=
  ⟨r.hints.insert (hintId name) ⟨name, f⟩⟩

/-- Adds all hints of another registry, whose hints win (`HintRegistry.extend`). -/
def extend (r other : HintRegistry) : HintRegistry :=
  ⟨other.hints.entries.foldl (fun m e => m.insert e.1 e.2) r.hints⟩

/-- The hint with an id (`HintRegistry.get`). -/
def find? (r : HintRegistry) (id : HintId) : Option NamedHint := r.hints.find? id

/-- The name of the hint with an id (`HintRegistry.name`). -/
def name? (r : HintRegistry) (id : HintId) : Option String := (r.find? id).map NamedHint.name

/-- Whether a hint has the id (`HintRegistry.contains`). -/
def contains (r : HintRegistry) (id : HintId) : Bool := r.hints.contains id

/-- The number of hints (`HintRegistry.len`). -/
def size (r : HintRegistry) : Nat := r.hints.size

/-- The names, in the order of their characters (in `fmt` of `HintRegistry`). -/
def names (r : HintRegistry) : List String :=
  (r.hints.values.map NamedHint.name).mergeSort (fun a b => decide (a ≤ b))

/-- The registry in words (`fmt` of `HintRegistry`). -/
def describe (r : HintRegistry) : String :=
  "HintRegistry \x7b hints: " ++ Text.quotedList r.names ++ " \x7d"

@[simp] theorem find?_register (r : HintRegistry) (name : String) (f : HintFunction)
    (id : HintId) :
    (r.register name f).find? id = if id = hintId name then some ⟨name, f⟩ else r.find? id :=
  OrderedMap.find?_insert _ _ _ _

end HintRegistry

end CircuitWitness
