import CircuitWitness.Blueprint.Gate
import CircuitWitness.Blueprint.HintCall
import CircuitWitness.Blueprint.RankOne

/-!
# Packing and unpacking by blueprint

A blueprint packs the one kind of instruction that it stands for and refuses the others. Unpacking
overwrites a destination. It is left as it is if the blueprint does not support the kind, and
cleared first in all other cases.
-/

namespace CircuitWitness.Blueprint

/-- Runs an action, with its failures renamed. -/
def mapFault {ε δ σ α : Type} (f : ε → δ) (x : EStateM ε σ α) : EStateM δ σ α := fun s =>
  match x.run s with
  | .ok a s' => .ok a s'
  | .error e s' => .error (f e) s'

/-! ## Packing -/

/-- Appends a rank-one constraint to a buffer (`compress_r1c`). -/
def compressR1C (b : Blueprint) (c : R1C) : Writer Unit :=
  match b.kind with
  | .r1c => c.write
  | .gate | .hint => throw (.unsupported b .r1c)

/-- Appends a gate to a buffer (`compress_sparse_r1c`). -/
def compressGate (b : Blueprint) (g : Gate) : Writer Unit :=
  match b.kind with
  | .gate =>
    match g.shapeFault? b with
    | some fault => throw (.shapeMismatch b fault)
    | none => append (g.words b)
  | .r1c | .hint => throw (.unsupported b .gate)

/-- Appends a hint call to a buffer (`compress_hint`). -/
def compressHint (b : Blueprint) (h : HintCall) : Writer Unit :=
  match b.kind with
  | .hint => h.write
  | .r1c | .gate => throw (.unsupported b .hint)

/-! ## Unpacking -/

/-- Overwrites the destination with the rank-one constraint of a range (`decompress_r1c`). -/
def decompressR1C (b : Blueprint) (words : CallData) : EStateM Error R1C Unit :=
  match b.kind with
  | .r1c => do
    set R1C.empty
    match R1C.ofWords words with
    | .ok c => set c
    | .error fault => throw (.malformed b fault)
  | .gate | .hint => throw (.unsupported b .r1c)

/-- Overwrites the destination with the gate of a range (`decompress_sparse_r1c`). -/
def decompressGate (b : Blueprint) (words : CallData) : EStateM Error Gate Unit :=
  match b.kind with
  | .gate => do
    set Gate.empty
    match Gate.ofWords b words with
    | .ok g => set g
    | .error fault => throw (.malformed b fault)
  | .r1c | .hint => throw (.unsupported b .gate)

/-- Overwrites the destination with the hint call of a range (`decompress_hint`). -/
def decompressHint (b : Blueprint) (words : CallData) : EStateM Error HintCall Unit :=
  match b.kind with
  | .hint => mapFault (.malformed b) (HintCall.read words)
  | .r1c | .gate => throw (.unsupported b .hint)

/-! ## Fresh destinations -/

/-- What an action leaves in a destination that starts with the given content. -/
def contentAfter {ε σ : Type} (x : EStateM ε σ Unit) (start : σ) : Except ε σ :=
  match x.run start with
  | .ok _ s => .ok s
  | .error e _ => .error e

/-- The rank-one constraint of a range (`decompress_r1c` into a fresh destination). -/
def r1cOf (b : Blueprint) (words : CallData) : Except Error R1C :=
  contentAfter (b.decompressR1C words) R1C.empty

/-- The gate of a range (`decompress_sparse_r1c` into a fresh destination). -/
def gateOf (b : Blueprint) (words : CallData) : Except Error Gate :=
  contentAfter (b.decompressGate words) Gate.empty

/-- The hint call of a range (`decompress_hint` into a fresh destination). -/
def hintOf (b : Blueprint) (words : CallData) : Except Error HintCall :=
  contentAfter (b.decompressHint words) HintCall.empty

end CircuitWitness.Blueprint
