import CircuitWitness.Blueprint.Basic
import CircuitWitness.Hint.Basic

/-!
# Call data of hints

`[total, hint, number of inputs]`, then each input with its length in front, then the outputs,
whose number is what remains.
-/

namespace CircuitWitness.HintCall

open Blueprint (CallDataFault)

/-- The number of words of a call (the `total` of `compress` for hints). -/
def wordCount (h : HintCall) : Nat :=
  3 + h.inputs.foldr (fun e n => 1 + 2 * e.length + n) 0 + h.outputs.length

/-- Appends an input with its length in front (in `compress` for hints). -/
def writeInput (e : LinearExpr) : Blueprint.Writer Unit := do
  Blueprint.appendLength .genericHint e.length
  Blueprint.append (e.flatMap Term.words)

/-- Appends a call (`compress` for hints). -/
def write (h : HintCall) : Blueprint.Writer Unit := do
  Blueprint.appendLength .genericHint h.wordCount
  Blueprint.append [h.hint]
  Blueprint.appendLength .genericHint h.inputs.length
  h.inputs.forM writeInput
  Blueprint.append h.outputs

/-- Reads `n` inputs from the front of the words into the call and gives the words after them (the
    loop of `decompress` for hints). -/
def readInputs : Nat → CallData → EStateM CallDataFault HintCall CallData
  | 0, rest => pure rest
  | _ + 1, [] => throw .truncatedInput
  | n + 1, length :: rest => do
    let k := 2 * length.toNat
    if rest.length < k then throw .truncatedInput
    modify fun h => { h with inputs := h.inputs ++ [Term.ofWords (rest.take k)] }
    readInputs n (rest.drop k)

/-- Reads a range of words into the call, which is cleared before (`decompress` for hints). After a
    failure the call holds what had been read. -/
def read (words : CallData) : EStateM CallDataFault HintCall Unit := do
  set empty
  match words with
  | total :: hint :: count :: body =>
    if total.toNat ≠ words.length then throw .lengthMismatch
    modify fun h => { h with hint }
    let outputs ← readInputs count.toNat body
    modify fun h => { h with outputs }
  | _ => throw .missingHeader

end CircuitWitness.HintCall
