import CircuitWitness.Blueprint.Basic
import CircuitWitness.Constraint.RankOne

/-!
# Call data of rank-one constraints

`[total, length l, length r]` and then two words per term. The length of `o` is what remains.

Results:
* `ofWords_words`: the words of a constraint are read back as the constraint.
-/

namespace CircuitWitness.R1C

/-- The words in front of the terms (`HEADER_LEN`). -/
def headerLength : Nat := 3

/-- The number of words of a constraint (the `total` of `compress` for rank-one constraints). -/
def wordCount (c : R1C) : Nat := headerLength + 2 * (c.l.length + c.r.length + c.o.length)

/-- The words of a constraint (what `compress` appends for rank-one constraints). -/
def words (c : R1C) : List UInt32 :=
  [UInt32.ofNat c.wordCount, UInt32.ofNat c.l.length, UInt32.ofNat c.r.length]
    ++ c.terms.flatMap Term.words

/-- Appends a constraint (`compress` for rank-one constraints). -/
def write (c : R1C) : Blueprint.Writer Unit := do
  Blueprint.appendLength .genericR1C c.wordCount
  Blueprint.appendLength .genericR1C c.l.length
  Blueprint.appendLength .genericR1C c.r.length
  Blueprint.append (c.terms.flatMap Term.words)

/-- The constraint of a range of words (`decompress` for rank-one constraints, with
    `read_expression`). -/
def ofWords : CallData → Except Blueprint.CallDataFault R1C
  | total :: left :: right :: body =>
    let n := left.toNat
    let m := right.toNat
    if total.toNat ≠ body.length + headerLength then .error .lengthMismatch
    else if body.length % 2 ≠ 0 then .error .oddTermWords
    else if body.length / 2 < n + m then .error .expressionsTooLong
    else
      let terms := Term.ofWords body
      .ok ⟨terms.take n, (terms.drop n).take m, (terms.drop n).drop m⟩
  | _ => .error .missingHeader

theorem length_flatMap_words (ts : List Term) : (ts.flatMap Term.words).length = 2 * ts.length := by
  induction ts with
  | nil => rfl
  | cons t ts ih => simp [Term.words] at ih ⊢; omega

theorem ofWords_words {c : R1C} (h : c.wordCount < wordRange) : ofWords c.words = .ok c := by
  have hw := h
  simp only [wordCount, headerLength, wordRange] at h
  have hl : c.l.length % 2 ^ 32 = c.l.length := Nat.mod_eq_of_lt (by omega)
  have hr : c.r.length % 2 ^ 32 = c.r.length := Nat.mod_eq_of_lt (by omega)
  have ht : c.wordCount % 2 ^ 32 = c.wordCount := Nat.mod_eq_of_lt hw
  have hn : c.terms.length = c.l.length + c.r.length + c.o.length := by
    simp [terms, Nat.add_assoc]
  simp only [words, List.cons_append, List.nil_append, ofWords, UInt32.toNat_ofNat', ht, hl, hr,
    length_flatMap_words, hn]
  rw [if_neg (by simp [wordCount, headerLength]; omega), if_neg (by omega), if_neg (by omega),
    Term.ofWords_flatMap_words]
  simp [terms]

end CircuitWitness.R1C
