import CircuitWitness.Proofs.Circuit.Edits

/-!
# Descriptions and locations

Descriptions are of constraints that exist, and locations name functions that exist. Both tables
only grow, and what is added to them refers to what is there by then; a number that does not fit
into a word refers to an earlier entry.

Results:
* `apply_documents`: what an edit does to descriptions and locations.
* `described_edited`, `wellFormed_edited`: they keep referring to what exists.
-/

namespace CircuitWitness

namespace Circuit

variable {F : PrimeField}

/-! ## Edits -/

/-- What an edit can do to descriptions and locations. -/
inductive Documents (c c' : Circuit F) : Prop where
  | kept (descriptions : c'.descriptions = c.descriptions)
    (descriptionOf : c'.descriptionOf = c.descriptionOf) (symbols : c'.symbols = c.symbols)
  | described {constraint : UInt32} {entry : LogEntry}
    (known : constraint.toNat < c.constraintCount)
    (descriptions : c'.descriptions = c.descriptions ++ [entry])
    (descriptionOf : c'.descriptionOf
      = c.descriptionOf.insert constraint (UInt32.ofNat c.descriptions.length))
    (symbols : c'.symbols = c.symbols)
  | located {function file : String} {line : UInt32}
    (descriptions : c'.descriptions = c.descriptions)
    (descriptionOf : c'.descriptionOf = c.descriptionOf)
    (symbols : c'.symbols = (c.symbols.addLocation function file line).2)

theorem Documents.of_effect {c c' : Circuit F} {e : Edit F} (h : Edit.Effect c e c') :
    Documents c c' := by
  cases h with
  | describe known => exact .described known rfl rfl rfl
  | location => exact .located rfl rfl rfl
  | _ => exact .kept rfl rfl rfl

theorem apply_documents (c : Circuit F) (e : Edit F) : Documents c (e.apply c) :=
  .of_effect (e.apply_effect c)

variable {c c' : Circuit F}

/-- Descriptions are of constraints that exist. -/
def Described (c : Circuit F) : Prop := ∀ e ∈ c.descriptionOf.entries,
  e.1.toNat < c.constraintCount ∧ e.2.toNat < c.descriptions.length

theorem Described.edited (h : c.Described) (documents : Documents c c')
    (count : c.constraintCount ≤ c'.constraintCount) : c'.Described := by
  intro x mem
  cases documents with
  | kept descriptions descriptionOf _ | located descriptions descriptionOf _ =>
    rw [descriptionOf] at mem
    rw [descriptions]
    exact ⟨Nat.lt_of_lt_of_le (h x mem).1 count, (h x mem).2⟩
  | described known descriptions descriptionOf _ =>
    rw [descriptionOf] at mem
    rw [descriptions, List.length_append, List.length_singleton]
    obtain rfl | old := mem_insertEntry mem
    · refine ⟨Nat.lt_of_lt_of_le known count, Nat.lt_succ_of_le ?_⟩
      rw [UInt32.toNat_ofNat']
      exact Nat.mod_le _ _
    · have := h x old
      omega

theorem wellFormed_edited (h : c.symbols.wellFormed) (documents : Documents c c') :
    c'.symbols.wellFormed := by
  cases documents with
  | kept _ _ symbols | described _ _ _ symbols => rwa [symbols]
  | located _ _ symbols =>
    rw [symbols]
    exact SymbolTable.wellFormed_addLocation h _ _ _

end Circuit

end CircuitWitness
