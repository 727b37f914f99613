import CircuitWitness.Codec.Standard

/-!
# Terms and linear expressions

A term is a coefficient times the value of a wire, both given by their ids. The first five ids of
a coefficient table are fixed: they stand for `0`, `1`, `2`, `-1` and `-2` in every field.
-/

namespace CircuitWitness

/-- The place of a coefficient in the coefficient table (`CoeffId`). -/
abbrev CoeffId := UInt32

/-- The place of a wire in the assignment (`WireId`). -/
abbrev WireId := UInt32

namespace CoeffId

/-- The id of the coefficient `0` (`COEFF_ID_ZERO`). -/
def zero : CoeffId := 0

/-- The id of the coefficient `1` (`COEFF_ID_ONE`). -/
def one : CoeffId := 1

/-- The id of the coefficient `2` (`COEFF_ID_TWO`). -/
def two : CoeffId := 2

/-- The id of the coefficient `-1` (`COEFF_ID_MINUS_ONE`). -/
def minusOne : CoeffId := 3

/-- The id of the coefficient `-2` (`COEFF_ID_MINUS_TWO`). -/
def minusTwo : CoeffId := 4

end CoeffId

/-- The wire that holds one in systems of rank-one constraints (`ONE_WIRE`). -/
def oneWire : WireId := 0

/-- A coefficient times a wire (`Term`). -/
structure Term where
  coeff : CoeffId
  wire : WireId
deriving DecidableEq, Repr, Inhabited

/-- A sum of terms (`LinearExpression`). The order is kept by every written form but does not matter
    for the value. -/
abbrev LinearExpr := List Term

namespace Term

/-- A wire by itself (`Term.wire`). -/
def ofWire (w : WireId) : Term := ⟨CoeffId.one, w⟩

/-- Whether the term stands on the wire that holds one (`Term.is_constant`). -/
def isConstant (t : Term) : Bool := t.wire = oneWire

/-- Whether the coefficient is the zero entry (`Term.is_zero`). -/
def isZero (t : Term) : Bool := t.coeff = CoeffId.zero

/-- Coefficient id, then wire (`serialize` and `deserialize` of `Term`). -/
def codec : Codec Term :=
  (Codec.pair .u32 .u32).imap (fun (c, w) => ⟨c, w⟩) (fun t => (t.coeff, t.wire))

/-- The two words of a term in call data (in `compress`). -/
def words (t : Term) : List UInt32 := [t.coeff, t.wire]

/-- The terms of consecutive pairs of words; a last word without partner is dropped (the
    `chunks_exact` of `decompress`). -/
def ofWords : List UInt32 → List Term
  | c :: w :: rest => ⟨c, w⟩ :: ofWords rest
  | _ => []

theorem ofWords_flatMap_words (ts : List Term) : ofWords (ts.flatMap words) = ts := by
  induction ts with
  | nil => rfl
  | cons t ts ih => simpa [words, ofWords] using ih

end Term

end CircuitWitness
