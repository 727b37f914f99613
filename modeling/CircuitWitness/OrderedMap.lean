/-!
# Maps in key order

A finite map is the list of its entries with increasing keys, so that equal maps are equal lists
and walking a map walks it in key order. The list being sorted is part of the type.

Results:
* `find?_insert`: after an insertion the key holds the value, and other keys keep theirs.
* `ext_find?`: a map is determined by its look-ups.
-/

namespace CircuitWitness

section

variable {κ α : Type} [LE κ] [LT κ] [DecidableLT κ] [Std.IsLinearOrder κ] [Std.LawfulOrderLT κ]

/-- Inserts into a list of entries with increasing keys, replacing the value of an equal key. -/
def insertEntry (k : κ) (v : α) : List (κ × α) → List (κ × α)
  | [] => [(k, v)]
  | (k', v') :: rest =>
    if k < k' then (k, v) :: (k', v') :: rest
    else if k' < k then (k', v') :: insertEntry k v rest
    else (k, v) :: rest

omit [LE κ] [Std.IsLinearOrder κ] [Std.LawfulOrderLT κ] in
theorem mem_insertEntry {k : κ} {v : α} {l : List (κ × α)} {e : κ × α}
    (h : e ∈ insertEntry k v l) : e = (k, v) ∨ e ∈ l := by
  induction l with
  | nil => simpa [insertEntry] using h
  | cons x rest ih =>
    rw [insertEntry] at h
    split at h
    · simpa using h
    · split at h
      · rcases List.mem_cons.1 h with rfl | h
        · simp
        · rcases ih h with h | h <;> simp [h]
      · rcases List.mem_cons.1 h with h | h <;> simp [h]

theorem pairwise_insertEntry {k : κ} {v : α} {l : List (κ × α)}
    (h : l.Pairwise (fun a b => a.1 < b.1)) :
    (insertEntry k v l).Pairwise (fun a b => a.1 < b.1) := by
  induction l with
  | nil => simp [insertEntry]
  | cons x rest ih =>
    obtain ⟨below, sorted⟩ := List.pairwise_cons.1 h
    rw [insertEntry]
    split
    · next lt =>
      refine List.pairwise_cons.2 ⟨fun e he => ?_, h⟩
      rcases List.mem_cons.1 he with rfl | he
      · exact lt
      · exact Std.lt_trans lt (below e he)
    · next notLt =>
      split
      · next gt =>
        refine List.pairwise_cons.2 ⟨fun e he => ?_, ih sorted⟩
        rcases mem_insertEntry he with rfl | he
        · exact gt
        · exact below e he
      · next notGt =>
        have same : k = x.1 := Std.le_antisymm (Std.not_lt.1 notGt) (Std.not_lt.1 notLt)
        exact List.pairwise_cons.2 ⟨fun e he => same ▸ below e he, sorted⟩

end

/-- A finite map, as its entries by increasing key. -/
structure OrderedMap (κ α : Type) [LT κ] where
  entries : List (κ × α)
  sorted : entries.Pairwise (fun a b => a.1 < b.1)

namespace OrderedMap

variable {κ α : Type} [LE κ] [LT κ] [DecidableLT κ] [Std.IsLinearOrder κ] [Std.LawfulOrderLT κ]

omit [LE κ] [DecidableLT κ] [Std.IsLinearOrder κ] [Std.LawfulOrderLT κ] in
@[ext] theorem ext {m n : OrderedMap κ α} (h : m.entries = n.entries) : m = n := by
  cases m; cases n; simp_all

/-- The map without entries. -/
def empty : OrderedMap κ α := ⟨[], .nil⟩

instance : Inhabited (OrderedMap κ α) := ⟨empty⟩

/-- Sets the value of a key. -/
def insert (m : OrderedMap κ α) (k : κ) (v : α) : OrderedMap κ α :=
  ⟨insertEntry k v m.entries, pairwise_insertEntry m.sorted⟩

/-- The map of a list of entries; of entries with one key the last holds. -/
def ofList (l : List (κ × α)) : OrderedMap κ α := l.foldl (fun m e => m.insert e.1 e.2) empty

/-- The value of a key. -/
def find? [DecidableEq κ] (m : OrderedMap κ α) (k : κ) : Option α :=
  (m.entries.find? (fun e => e.1 = k)).map Prod.snd

/-- Whether a key has a value. -/
def contains [DecidableEq κ] (m : OrderedMap κ α) (k : κ) : Bool := (m.find? k).isSome

/-- The number of keys. -/
def size (m : OrderedMap κ α) : Nat := m.entries.length

/-- The values by increasing key. -/
def values (m : OrderedMap κ α) : List α := m.entries.map Prod.snd

/-! ## Look-ups -/

variable [DecidableEq κ]

omit [LE κ] [DecidableLT κ] [Std.IsLinearOrder κ] [Std.LawfulOrderLT κ] in
@[simp] theorem find?_empty (k : κ) : (empty : OrderedMap κ α).find? k = none := rfl

theorem find?_insertEntry (k x : κ) (v : α) (l : List (κ × α)) :
    ((insertEntry k v l).find? (fun e => e.1 = x)).map Prod.snd
      = if x = k then some v else (l.find? (fun e => e.1 = x)).map Prod.snd := by
  induction l with
  | nil => by_cases h : k = x <;> simp [insertEntry, h, eq_comm]
  | cons y rest ih =>
    rw [insertEntry]
    split
    · by_cases h : k = x
      · subst h; simp
      · simp [List.find?_cons, h, Ne.symm h]
    · next notLt =>
      split
      · next gt =>
        by_cases h : y.1 = x
        · have : ¬ x = k := fun hx => Std.lt_irrefl (a := k) (by rw [← hx, ← h] at gt ⊢; exact gt)
          simp [h, this]
        · simpa [List.find?_cons, h] using ih
      · next notGt =>
        have same : k = y.1 := Std.le_antisymm (Std.not_lt.1 notGt) (Std.not_lt.1 notLt)
        by_cases h : x = k
        · subst h; simp
        · have : ¬ y.1 = x := fun hx => h (by rw [same, hx])
          simp [h, this, Ne.symm h]

@[simp] theorem find?_insert (m : OrderedMap κ α) (k x : κ) (v : α) :
    (m.insert k v).find? x = if x = k then some v else m.find? x :=
  find?_insertEntry k x v m.entries

omit [DecidableLT κ] [Std.IsLinearOrder κ] in
theorem find?_eq_none_of_lt {k : κ} {l : List (κ × α)} (h : ∀ e ∈ l, k < e.1) :
    l.find? (fun e => e.1 = k) = none := by
  rw [List.find?_eq_none]
  intro e he same
  exact Std.lt_irrefl (a := k) ((of_decide_eq_true same) ▸ h e he)

omit [DecidableLT κ] in
theorem eq_of_find?_eq {l₁ l₂ : List (κ × α)} (s₁ : l₁.Pairwise (fun a b => a.1 < b.1))
    (s₂ : l₂.Pairwise (fun a b => a.1 < b.1))
    (h : ∀ k, (l₁.find? (fun e => e.1 = k)).map Prod.snd
      = (l₂.find? (fun e => e.1 = k)).map Prod.snd) : l₁ = l₂ := by
  induction l₁ generalizing l₂ with
  | nil =>
    cases l₂ with
    | nil => rfl
    | cons y ys => simpa using h y.1
  | cons x xs ih =>
    cases l₂ with
    | nil => simpa using h x.1
    | cons y ys =>
      obtain ⟨bx, sx⟩ := List.pairwise_cons.1 s₁
      obtain ⟨sBelow, sy⟩ := List.pairwise_cons.1 s₂
      have noLt : ¬ x.1 < y.1 := fun lt => by
        have absent := find?_eq_none_of_lt (l := y :: ys) fun e he => by
          rcases List.mem_cons.1 he with rfl | he
          · exact lt
          · exact Std.lt_trans lt (sBelow e he)
        have := h x.1
        rw [absent] at this
        simp at this
      have noGt : ¬ y.1 < x.1 := fun lt => by
        have absent := find?_eq_none_of_lt (l := x :: xs) fun e he => by
          rcases List.mem_cons.1 he with rfl | he
          · exact lt
          · exact Std.lt_trans lt (bx e he)
        have := h y.1
        rw [absent] at this
        simp at this
      have same : x.1 = y.1 := Std.le_antisymm (Std.not_lt.1 noGt) (Std.not_lt.1 noLt)
      have head : x = y := Prod.ext same (by simpa [same] using h x.1)
      subst head
      congr 1
      refine ih sx sy fun k => ?_
      by_cases hk : x.1 = k
      · subst hk
        rw [find?_eq_none_of_lt bx, find?_eq_none_of_lt sBelow]
      · simpa [hk] using h k

omit [DecidableLT κ] in
theorem ext_find? {m n : OrderedMap κ α} (h : ∀ k, m.find? k = n.find? k) : m = n :=
  ext (eq_of_find?_eq m.sorted n.sorted h)

end OrderedMap

end CircuitWitness
