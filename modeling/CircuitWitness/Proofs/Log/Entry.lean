import CircuitWitness.Log.Entry
import Mathlib.Data.List.Infix
import Mathlib.Data.Nat.Find

/-!
# Rendered log entries

A format is a list of segments with a placeholder between each two of them. The placeholders are
found from the left: each is the first one in what the one before it leaves of the format, so of
braces that overlap the first ones count. A rendered entry has the same segments, with texts in
place of the placeholders. What the texts are, braces or not, has no influence on the segments.

Results:
* `exists_segments`, `Segments.unique`: each format has its segments.
* `fill_segments`: the segments of a format whose placeholders are filled.
* `render_segments`: a rendered entry, also where the texts are found by a program.
-/

namespace CircuitWitness.LogEntry

/-! ## Placeholders -/

/-- What stands for the value of an expression. -/
def placeholder : List Char := ['\x7b', '\x7d']

/-- A placeholder begins at a place of a text. -/
def PlaceholderAt (text : List Char) (i : ℕ) : Prop := placeholder <+: text.drop i

instance (text : List Char) (i : ℕ) : Decidable (PlaceholderAt text i) :=
  inferInstanceAs (Decidable (placeholder <+: text.drop i))

theorem PlaceholderAt.lt {text : List Char} {i : ℕ} (h : PlaceholderAt text i) :
    i + 2 ≤ text.length := by
  have short := h.length_le
  simp only [placeholder, List.length_cons, List.length_nil, List.length_drop] at short
  omega

theorem PlaceholderAt.eq {text : List Char} {i : ℕ} (h : PlaceholderAt text i) :
    text = text.take i ++ placeholder ++ text.drop (i + 2) := by
  obtain ⟨rest, split⟩ := h
  have after : text.drop (i + 2) = rest := by
    rw [← List.drop_drop, ← split]
    rfl
  rw [after, List.append_assoc, split, List.take_append_drop]

theorem placeholderAt_append (s rest : List Char) :
    PlaceholderAt (s ++ placeholder ++ rest) s.length := by
  rw [PlaceholderAt, List.append_assoc, List.drop_left]
  exact List.prefix_append _ _

/-! ## Segments -/

/-- The segments of a format. The first one ends where the leftmost placeholder begins, the others
    are those of what follows it; a format without a placeholder is one segment. -/
inductive Segments : List Char → List (List Char) → Prop where
  | last {s : List Char} (free : ∀ i, ¬ PlaceholderAt s i) : Segments s [s]
  | cut {s rest : List Char} {ps : List (List Char)}
    (leftmost : ∀ i < s.length, ¬ PlaceholderAt (s ++ placeholder ++ rest) i)
    (others : Segments rest ps) : Segments (s ++ placeholder ++ rest) (s :: ps)

theorem exists_segments (text : List Char) : ∃ s ss, Segments text (s :: ss) := by
  induction size : text.length using Nat.strong_induction_on generalizing text with
  | _ n ih =>
    subst size
    by_cases occurs : ∃ i, PlaceholderAt text i
    · have here := Nat.find_spec occurs
      have before {i : ℕ} (lt : i < Nat.find occurs) := Nat.find_min occurs lt
      generalize Nat.find occurs = i at here before
      have inside := here.lt
      obtain ⟨s, ss, others⟩ := ih (text.drop (i + 2)).length
        (by rw [List.length_drop]; omega) _ rfl
      refine ⟨text.take i, s :: ss, ?_⟩
      have first : ∀ j < (text.take i).length,
          ¬ PlaceholderAt (text.take i ++ placeholder ++ text.drop (i + 2)) j := by
        intro j lt
        rw [← here.eq]
        exact before (lt.trans_le (List.length_take_le i text))
      have segments := Segments.cut first others
      rwa [← here.eq] at segments
    · exact ⟨text, [], .last (not_exists.1 occurs)⟩

theorem Segments.unique {text : List Char} {ps ps' : List (List Char)} (h : Segments text ps)
    (h' : Segments text ps') : ps = ps' := by
  induction h generalizing ps' with
  | last free =>
    cases h' with
    | last _ => rfl
    | @cut s rest _ _ _ => exact absurd (placeholderAt_append s rest) (free s.length)
  | @cut s rest ps leftmost _ ih =>
    generalize same : s ++ placeholder ++ rest = text at leftmost h'
    cases h' with
    | last free =>
      subst same
      exact absurd (placeholderAt_append s rest) (free s.length)
    | @cut s' rest' ps' leftmost' others' =>
      -- Neither of the two placeholders is to the left of the other one.
      have length : s.length = s'.length := by
        obtain lt | eq | gt := lt_trichotomy s.length s'.length
        · exact absurd (same ▸ placeholderAt_append s rest) (leftmost' _ lt)
        · exact eq
        · exact absurd (placeholderAt_append s' rest') (leftmost _ gt)
      rw [List.append_assoc, List.append_assoc] at same
      obtain ⟨rfl, tail⟩ := List.append_inj same length
      rw [ih (List.append_cancel_left tail ▸ others')]

/-! ## Filled placeholders -/

/-- Segments with a text before each, or a placeholder where there is no text left. -/
def weave (texts : List String) (segments : List (List Char)) : List Char :=
  (segments.mapIdx fun i s => texts[i]?.elim placeholder String.toList ++ s).flatten

@[simp] theorem weave_nil (texts : List String) : weave texts [] = [] := rfl

theorem weave_cons (text : String) (texts : List String) (s : List Char) (ss : List (List Char)) :
    weave (text :: texts) (s :: ss) = text.toList ++ s ++ weave texts ss := by
  simp [weave, List.mapIdx_cons]

theorem weave_nil_cons (s : List Char) (ss : List (List Char)) :
    weave [] (s :: ss) = placeholder ++ s ++ weave [] ss := by
  simp [weave, List.mapIdx_cons]

section Programs

variable {m : Type → Type} [Monad m] [LawfulMonad m] (resolve : LinearExpr → m String)

/-- A character at which no placeholder begins is kept. -/
theorem fill_cons {c : Char} {text : List Char} (es : List LinearExpr)
    (free : ¬ PlaceholderAt (c :: text) 0) :
    fill resolve (c :: text) es = (c :: ·) <$> fill resolve text es := by
  have apart {tail : List Char} (opening : c = '\x7b') (close : text = '\x7d' :: tail) : False := by
    subst opening close
    exact free (List.prefix_append placeholder tail)
  rw [fill, map_eq_pure_bind]
  · intro rest e es' _ opening close
    exact apart opening close
  · intro rest _ opening close
    exact apart opening close

/-- What stands before the leftmost placeholder is kept. -/
theorem fill_append (s rest : List Char) (es : List LinearExpr)
    (leftmost : ∀ i < s.length, ¬ PlaceholderAt (s ++ rest) i) :
    fill resolve (s ++ rest) es = (s ++ ·) <$> fill resolve rest es := by
  induction s with
  | nil => simp
  | cons c s ih =>
    have others := ih fun i lt => leftmost (i + 1) (Nat.succ_lt_succ lt)
    have free : ¬ PlaceholderAt (c :: (s ++ rest)) 0 := leftmost 0 (Nat.succ_pos _)
    rw [List.cons_append, fill_cons resolve es free, others, Functor.map_map]
    rfl

theorem fill_placeholder_cons (rest : List Char) (e : LinearExpr) (es : List LinearExpr) :
    fill resolve (placeholder ++ rest) (e :: es)
      = resolve e >>= fun text => (text.toList ++ ·) <$> fill resolve rest es := by
  simp only [placeholder, List.cons_append, List.nil_append, fill, map_eq_pure_bind]

theorem fill_placeholder_nil (rest : List Char) :
    fill resolve (placeholder ++ rest) [] = (placeholder ++ ·) <$> fill resolve rest [] := by
  simp only [placeholder, List.cons_append, List.nil_append, fill, map_eq_pure_bind]

/-- The placeholders of a format are filled one after the other, and nothing is resolved for which
    there is no placeholder. -/
theorem fill_segments {text s : List Char} {ss : List (List Char)} (h : Segments text (s :: ss))
    (es : List LinearExpr) :
    fill resolve text es = do
      let texts ← (es.take ss.length).mapM resolve
      return s ++ weave texts ss := by
  generalize all : s :: ss = ps at h
  induction h generalizing s ss es with
  | @last s' free =>
    obtain ⟨rfl, rfl⟩ := List.cons.inj all
    have kept := fill_append resolve s [] es fun i _ => by simpa using free i
    simpa [fill] using kept
  | @cut s' rest ps leftmost others ih =>
    obtain ⟨rfl, rfl⟩ := List.cons.inj all
    obtain ⟨s', ss', rfl⟩ : ∃ s' ss', ss = s' :: ss' := by
      cases others <;> exact ⟨_, _, rfl⟩
    rw [List.append_assoc] at leftmost ⊢
    rw [fill_append resolve s _ es leftmost]
    cases es with
    | nil =>
      rw [fill_placeholder_nil, ih [] rfl]
      simp [weave_nil_cons]
    | cons e es =>
      rw [fill_placeholder_cons, ih es rfl]
      simp [weave_cons]

end Programs

/-- The segments of a rendered entry are those of its format. Between them stand the texts of the
    first expressions, in order, and placeholders where there are more of these than expressions. A
    program that finds the texts is run for these expressions only. -/
theorem render_segments {m : Type → Type} [Monad m] [LawfulMonad m] (entry : LogEntry) :
    ∃ s ss, Segments entry.format.toList (s :: ss) ∧
      (∀ ps, Segments entry.format.toList ps → ps = s :: ss) ∧
      (∀ resolve : LinearExpr → String, entry.render resolve
        = String.ofList (s ++ weave ((entry.exprs.take ss.length).map resolve) ss)) ∧
      ∀ resolve : LinearExpr → m String, entry.renderM resolve = do
        let texts ← (entry.exprs.take ss.length).mapM resolve
        return String.ofList (s ++ weave texts ss) := by
  obtain ⟨s, ss, segments⟩ := exists_segments entry.format.toList
  have rendered {m : Type → Type} [Monad m] [LawfulMonad m] (resolve : LinearExpr → m String) :
      entry.renderM resolve = do
        let texts ← (entry.exprs.take ss.length).mapM resolve
        return String.ofList (s ++ weave texts ss) := by
    rw [renderM, fill_segments resolve segments]
    simp
  refine ⟨s, ss, segments, fun ps other => other.unique segments, fun resolve => ?_, rendered⟩
  rw [render, rendered]
  simp

/-- Texts that make up a placeholder with what stands around them are not filled again, and the
    third expression is not resolved. -/
theorem render_overlapping :
    let entry : LogEntry :=
      ⟨"", "\x7b\x7b\x7d\x7d\x7b\x7d", [[⟨1, 1⟩], [⟨1, 2⟩], [⟨1, 3⟩]], []⟩
    let resolve (e : LinearExpr) : StateM (List LinearExpr) String := do
      modify (· ++ [e])
      return "\x7d\x7b"
    Segments entry.format.toList [['\x7b'], ['\x7d'], []] ∧
      (entry.renderM resolve).run []
        = ("\x7b\x7d\x7b\x7d\x7d\x7b", [[⟨1, 1⟩], [⟨1, 2⟩]]) := by
  intro entry resolve
  have segments : Segments entry.format.toList [['\x7b'], ['\x7d'], []] := by
    have chars : entry.format.toList
        = ['\x7b'] ++ placeholder ++ (['\x7d'] ++ placeholder ++ []) := by
      decide
    have free (i : ℕ) : ¬ PlaceholderAt [] i := fun placeholder => absurd placeholder.lt (by simp)
    rw [chars]
    exact .cut (by decide) (.cut (by decide) (.last free))
  obtain ⟨s, ss, -, unique, -, program⟩ := render_segments (m := StateM (List LinearExpr)) entry
  obtain ⟨rfl, rfl⟩ := List.cons.inj (unique _ segments)
  refine ⟨segments, ?_⟩
  rw [program]
  rfl

example : render ⟨"", "a = \x7b\x7d, b = \x7b\x7d, c = \x7b\x7d", [[⟨1, 1⟩], [⟨1, 2⟩]], []⟩
    (fun e => "v" ++ String.join (e.map fun t => toString t.wire.toNat))
    = "a = v1, b = v2, c = \x7b\x7d" := by decide

end CircuitWitness.LogEntry
