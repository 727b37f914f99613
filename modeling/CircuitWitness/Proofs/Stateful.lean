/-!
# Programs with a state and failures

What a program that ends well, or fails, tells of its parts. A failed program has a state, too.

Results:
* `bind_ok`: if two programs in a row end well, so does each.
* `bind_error`: if they fail, the first fails or the second does.
-/

namespace CircuitWitness

variable {ε σ α β : Type}

/-- The state that a run ends in, well or not. -/
def stateAfter : EStateM.Result ε σ α → σ
  | .ok _ s => s
  | .error _ s => s

@[simp] theorem stateAfter_ok (a : α) (s : σ) :
    stateAfter (.ok a s : EStateM.Result ε σ α) = s := rfl

@[simp] theorem stateAfter_error (e : ε) (s : σ) :
    stateAfter (.error e s : EStateM.Result ε σ α) = s := rfl

/-- The failure that a run ends with, if it does. -/
def failure? : EStateM.Result ε σ α → Option ε
  | .ok _ _ => none
  | .error e _ => some e

theorem failure?_eq_some {r : EStateM.Result ε σ α} {e : ε} :
    failure? r = some e ↔ ∃ s, r = .error e s := by
  cases r <;> simp [failure?]

theorem run_map (f : α → β) (x : EStateM ε σ α) (s : σ) :
    (f <$> x).run s =
      match x.run s with
      | .ok a s' => .ok (f a) s'
      | .error e s' => .error e s' := by
  rw [← bind_pure_comp, EStateM.run_bind]
  cases x.run s <;> rfl

@[simp] theorem stateAfter_map (f : α → β) (x : EStateM ε σ α) (s : σ) :
    stateAfter ((f <$> x).run s) = stateAfter (x.run s) := by
  rw [run_map]
  cases x.run s <;> rfl

theorem map_ok {f : α → β} {x : EStateM ε σ α} {s s' : σ} {a : α} (h : x.run s = .ok a s') :
    (f <$> x).run s = .ok (f a) s' := by
  rw [run_map, h]

theorem map_error {f : α → β} {x : EStateM ε σ α} {s s' : σ} {e : ε} (h : x.run s = .error e s') :
    (f <$> x).run s = .error e s' := by
  rw [run_map, h]

/-! ## Success -/

theorem bind_ok {x : EStateM ε σ α} {f : α → EStateM ε σ β} {s s' : σ} {b : β} :
    (x >>= f).run s = .ok b s' ↔ ∃ a s₁, x.run s = .ok a s₁ ∧ (f a).run s₁ = .ok b s' := by
  rw [EStateM.run_bind]
  cases h : x.run s with
  | ok a s₁ =>
    constructor
    · intro h'
      exact ⟨a, s₁, rfl, h'⟩
    · rintro ⟨_, _, ⟨⟩, h'⟩
      exact h'
  | error e s₁ => simp

theorem pure_ok {a b : α} {s s' : σ} :
    (pure a : EStateM ε σ α).run s = .ok b s' ↔ b = a ∧ s' = s := by
  simp [eq_comm]

theorem modify_ok {f : σ → σ} {s s' : σ} {u : PUnit} :
    (modify f : EStateM ε σ PUnit).run s = .ok u s' ↔ s' = f s := by
  simp [eq_comm]

/-! ## Failure -/

theorem bind_error {x : EStateM ε σ α} {f : α → EStateM ε σ β} {s s' : σ} {e : ε} :
    (x >>= f).run s = .error e s' ↔
      x.run s = .error e s' ∨ ∃ a s₁, x.run s = .ok a s₁ ∧ (f a).run s₁ = .error e s' := by
  rw [EStateM.run_bind]
  cases h : x.run s with
  | ok a s₁ =>
    constructor
    · intro h'
      exact .inr ⟨a, s₁, rfl, h'⟩
    · rintro (⟨⟨⟩⟩ | ⟨_, _, ⟨⟩, h'⟩)
      exact h'
  | error e s₁ => simp

/-! ## Failures without a state -/

theorem except_bind_ok {x : Except ε α} {f : α → Except ε β} {b : β} :
    (x >>= f) = .ok b ↔ ∃ a, x = .ok a ∧ f a = .ok b := by
  cases x with
  | ok a =>
    constructor
    · intro h
      exact ⟨a, rfl, h⟩
    · rintro ⟨_, ⟨⟩, h⟩
      exact h
  | error e =>
    constructor
    · rintro ⟨⟩
    · rintro ⟨_, ⟨⟩, -⟩

theorem except_toOption_eq_some {x : Except ε α} {a : α} : x.toOption = some a ↔ x = .ok a := by
  cases x <;> simp [Except.toOption]

theorem except_mapError_ok {ε' : Type} {x : Except ε α} {f : ε → ε'} {a : α} :
    x.mapError f = .ok a ↔ x = .ok a := by
  constructor
  · intro h
    cases x with
    | ok a' => exact congrArg Except.ok (Except.ok.inj h)
    | error e => cases h
  · rintro rfl
    rfl

/-- If a function gives the entries of a list, so does one that gives whatever the first does. -/
theorem map_ok_of_map_ok {f f' : α → Except ε β} {l : List α} {xs : List β}
    (h : l.map f = xs.map .ok) (gives : ∀ a x, f a = .ok x → f' a = .ok x) :
    l.map f' = xs.map .ok := by
  rw [← h]
  refine List.map_congr_left fun a ha => ?_
  have mem : f a ∈ xs.map .ok := by
    rw [← h]
    exact List.mem_map_of_mem ha
  obtain ⟨x, -, given⟩ := List.mem_map.1 mem
  rw [← given, gives a x given.symm]

/-- Where each entry of a list has a result, so has the list. -/
theorem except_mapM_of_map {f : α → Except ε β} {l : List α} {ys : List β}
    (h : l.map f = ys.map .ok) : l.mapM f = .ok ys := by
  induction l generalizing ys with
  | nil =>
    obtain rfl := List.map_eq_nil_iff.1 h.symm
    rfl
  | cons x l ih =>
    cases ys with
    | nil => cases h
    | cons y ys =>
      obtain ⟨first, rest⟩ := List.cons.inj h
      rw [List.mapM_cons, first, ih rest]
      rfl

/-- Where each entry of a list has a result, the results make up a list. -/
theorem except_exists_map_ok {f : α → Except ε β} {l : List α}
    (h : ∀ x ∈ l, ∃ y, f x = .ok y) : ∃ ys : List β, l.map f = ys.map .ok := by
  induction l with
  | nil => exact ⟨[], rfl⟩
  | cons x l ih =>
    obtain ⟨y, first⟩ := h x List.mem_cons_self
    obtain ⟨ys, rest⟩ := ih fun x' mem => h x' (List.mem_cons_of_mem x mem)
    exact ⟨y :: ys, by rw [List.map_cons, List.map_cons, first, rest]⟩

theorem except_forM_ok {f : α → Except ε Unit} {l : List α} :
    l.forM f = .ok () ↔ ∀ a ∈ l, f a = .ok () := by
  induction l with
  | nil => simp [pure, Except.pure]
  | cons a l ih =>
    simp only [List.forM, except_bind_ok, List.mem_cons, forall_eq_or_imp, ih]
    constructor
    · rintro ⟨_, first, rest⟩
      exact ⟨first, rest⟩
    · rintro ⟨first, rest⟩
      exact ⟨(), first, rest⟩

theorem except_foldlM_congr {f g : β → α → Except ε β} {l : List α}
    (same : ∀ x ∈ l, ∀ b, f b x = g b x) (b : β) : l.foldlM f b = l.foldlM g b := by
  induction l generalizing b with
  | nil => rfl
  | cons x l ih =>
    rw [List.foldlM_cons, List.foldlM_cons, same x List.mem_cons_self b]
    exact bind_congr fun b' => ih (fun y hy => same y (List.mem_cons_of_mem x hy)) b'

/-- A loop ends well if each of its steps does. -/
theorem except_foldlM_ok {f : β → α → Except ε β} {l : List α}
    (step : ∀ x ∈ l, ∀ b, ∃ b', f b x = .ok b') (b : β) : ∃ b', l.foldlM f b = .ok b' := by
  induction l generalizing b with
  | nil => exact ⟨b, rfl⟩
  | cons x l ih =>
    obtain ⟨b₁, first⟩ := step x List.mem_cons_self b
    obtain ⟨b', rest⟩ := ih (fun y hy => step y (List.mem_cons_of_mem x hy)) b₁
    exact ⟨b', by rw [List.foldlM_cons, first]; exact rest⟩

end CircuitWitness
