import CircuitWitness.Proofs.Circuit.Additions

/-!
# Automatic levels

The levels that a circuit keeps while it is built respect its dependencies: an instruction stands
above all instructions that define a wire it reads, as far as they were added before it. Each level
lists its instructions in order, and what is noted for a wire is the level of the instruction that
defines it.

Results:
* `Scheduled.place`: placing one more instruction changes nothing for the others.
* `schedule_pairwise`, `mem_schedule`: a schedule lists every instruction once, level by level.
* `Leveled.extended`: an instruction that is added keeps the levels in order.
* `Built.exists_level`: what edits keep holds of every circuit that was built without given levels.
* `Built.leveled`: the levels of such a circuit are in order.
-/

namespace CircuitWitness

variable {F : PrimeField}

/-! ## Schedules -/

namespace Levels

/-- The numbers below `n` that stand in a level. -/
def indicesAt (level : ℕ → ℕ) (n l : ℕ) : List UInt32 :=
  ((List.range n).filter (level · = l)).map UInt32.ofNat

/-- A schedule that lists the first `n` instructions, each in its level, in order. -/
structure Scheduled (level : ℕ → ℕ) (n : ℕ) (schedule : List (List UInt32)) : Prop where
  lists : ∀ l indices, schedule[l]? = some indices → indices = indicesAt level n l
  placed : ∀ p < n, level p < schedule.length

theorem indicesAt_update (level : ℕ → ℕ) (n l l' : ℕ) :
    indicesAt (Function.update level n l) (n + 1) l'
      = indicesAt level n l' ++ if l' = l then [UInt32.ofNat n] else [] := by
  have before : (List.range n).filter (Function.update level n l · = l')
      = (List.range n).filter (level · = l') := by
    refine List.filter_congr fun p hp => ?_
    rw [Function.update_of_ne (Nat.ne_of_lt (List.mem_range.1 hp))]
  rw [indicesAt, indicesAt, List.range_succ, List.filter_append, List.map_append, before]
  by_cases same : l' = l
  · simp [same]
  · simp [same, Ne.symm same]

theorem Scheduled.getD {level : ℕ → ℕ} {n : ℕ} {schedule : List (List UInt32)}
    (h : Scheduled level n schedule) (l : ℕ) : schedule[l]?.getD [] = indicesAt level n l := by
  cases listed : schedule[l]? with
  | some indices => rw [Option.getD_some, h.lists l indices listed]
  | none =>
    have above : schedule.length ≤ l := List.getElem?_eq_none_iff.1 listed
    have noneOnLevel : (List.range n).filter (level · = l) = [] := by
      rw [List.filter_eq_nil_iff]
      intro p hp
      have := h.placed p (List.mem_range.1 hp)
      rw [decide_eq_true_iff]
      omega
    rw [Option.getD_none, indicesAt, noneOnLevel, List.map_nil]

/-- Placing one more instruction changes nothing for the others. -/
theorem Scheduled.place {level : ℕ → ℕ} {n : ℕ} {schedule : List (List UInt32)}
    (h : Scheduled level n schedule) (l : ℕ) : Scheduled (Function.update level n l) (n + 1)
      (Levels.place (UInt32.ofNat n) l schedule) := by
  constructor
  · intro l' indices listed
    rw [indicesAt_update]
    by_cases same : l' = l
    · subst same
      rw [getElem?_place_self, Option.some.injEq, h.getD] at listed
      rw [← listed, if_pos rfl]
    · rw [getElem?_place_of_ne same _ listed, h.getD, if_neg same, List.append_nil]
  · intro p hp
    rw [length_place]
    by_cases last : p = n
    · subst last
      rw [Function.update_self]
      omega
    · have := h.placed p (by omega)
      rw [Function.update_of_ne last]
      omega

/-! ## What is noted for a wire -/

theorem foldl_max_le (levels : List ℕ) (n : ℕ) :
    n ≤ levels.foldl (fun n l => max n (l + 1)) n := by
  induction levels generalizing n with
  | nil => exact Nat.le_refl n
  | cons l levels ih =>
    rw [List.foldl_cons]
    have := ih (max n (l + 1))
    omega

theorem lt_foldl_max {levels : List ℕ} {l : ℕ} (h : l ∈ levels) (n : ℕ) :
    l < levels.foldl (fun n l => max n (l + 1)) n := by
  induction levels generalizing n with
  | nil => exact absurd h List.not_mem_nil
  | cons l' levels ih =>
    rw [List.foldl_cons]
    rcases List.mem_cons.1 h with rfl | h
    · have := foldl_max_le levels (max n (l + 1))
      omega
    · exact ih h _

/-- An instruction is placed above the levels of the wires that it reads. -/
theorem lt_above {s : Levels} {inputCount l : ℕ} {wires : List WireId} {x : WireId}
    (hx : x ∈ wires) (noInput : inputCount ≤ x.toNat) (noted : s.level? x = some l) :
    l < s.above inputCount wires := by
  refine lt_foldl_max ?_ 0
  rw [List.mem_filterMap]
  exact ⟨x, List.mem_filter.2 ⟨hx, decide_eq_true noInput⟩, noted⟩

theorem level?_commit (s : Levels) (index : UInt32) (l : ℕ) (outputs : List WireId) (x : WireId) :
    (s.commit index l outputs).level? x = if x ∈ outputs then some l else s.level? x := by
  have fold (m : OrderedMap WireId ℕ) : (outputs.foldl (fun m w => m.insert w l) m).find? x
      = if x ∈ outputs then some l else m.find? x := by
    induction outputs generalizing m with
    | nil => simp
    | cons y outputs ih =>
      rw [List.foldl_cons, ih, OrderedMap.find?_insert]
      by_cases mem : x ∈ outputs
      · simp [mem]
      · by_cases same : x = y
        · simp [same]
        · simp [mem, same]
  exact fold s.definedAt

end Levels

/-! ## The instructions of a schedule -/

theorem mem_indicesAt {level : ℕ → ℕ} {n l : ℕ} {index : UInt32} (small : n ≤ wordRange) :
    index ∈ Levels.indicesAt level n l ↔ index.toNat < n ∧ level index.toNat = l := by
  have word {p : ℕ} (hp : p < n) := toNat_word (Nat.lt_of_lt_of_le hp small)
  simp only [Levels.indicesAt, List.mem_map, List.mem_filter, List.mem_range, decide_eq_true_iff]
  constructor
  · rintro ⟨p, ⟨hp, onLevel⟩, rfl⟩
    rw [word hp]
    exact ⟨hp, onLevel⟩
  · rintro ⟨hp, onLevel⟩
    exact ⟨index.toNat, ⟨hp, onLevel⟩, UInt32.ofNat_toNat⟩

theorem pairwise_indicesAt {level : ℕ → ℕ} {n l : ℕ} (small : n ≤ wordRange) :
    (Levels.indicesAt level n l).Pairwise (· < ·) := by
  rw [Levels.indicesAt, List.pairwise_map]
  refine (List.pairwise_lt_range.filter _).imp_of_mem fun {p q} hp hq lt => ?_
  have lt_p := List.mem_range.1 (List.mem_of_mem_filter hp)
  have lt_q := List.mem_range.1 (List.mem_of_mem_filter hq)
  rwa [UInt32.lt_iff_toNat_lt, toNat_word (Nat.lt_of_lt_of_le lt_p small),
    toNat_word (Nat.lt_of_lt_of_le lt_q small)]

/-- The schedule lists the instructions level by level, each of them once. -/
theorem schedule_pairwise {level : ℕ → ℕ} {n : ℕ} {schedule : List (List UInt32)}
    (small : n ≤ wordRange) (h : Levels.Scheduled level n schedule) :
    schedule.flatten.Pairwise fun p q => level p.toNat ≤ level q.toNat ∧ p ≠ q := by
  rw [List.pairwise_flatten]
  constructor
  · intro indices mem
    obtain ⟨l, bound, rfl⟩ := List.getElem_of_mem mem
    have listed := h.lists l _ (List.getElem?_eq_getElem bound)
    rw [listed]
    refine (pairwise_indicesAt small).imp_of_mem fun {p q} hp hq lt => ⟨?_, UInt32.ne_of_lt lt⟩
    rw [((mem_indicesAt small).1 hp).2, ((mem_indicesAt small).1 hq).2]
  · rw [List.pairwise_iff_getElem]
    intro i j hi hj lt p hp q hq
    rw [h.lists i _ (List.getElem?_eq_getElem hi)] at hp
    rw [h.lists j _ (List.getElem?_eq_getElem hj)] at hq
    have lp := ((mem_indicesAt small).1 hp).2
    have lq := ((mem_indicesAt small).1 hq).2
    refine ⟨by omega, ?_⟩
    rintro rfl
    omega

theorem mem_schedule {level : ℕ → ℕ} {n : ℕ} {schedule : List (List UInt32)}
    (small : n ≤ wordRange) (h : Levels.Scheduled level n schedule) {index : UInt32} :
    index ∈ schedule.flatten ↔ index.toNat < n := by
  rw [List.mem_flatten]
  constructor
  · rintro ⟨indices, mem, hp⟩
    obtain ⟨l, bound, rfl⟩ := List.getElem_of_mem mem
    rw [h.lists l _ (List.getElem?_eq_getElem bound)] at hp
    exact ((mem_indicesAt small).1 hp).1
  · intro lt
    have bound := h.placed _ lt
    refine ⟨schedule[level index.toNat], List.getElem_mem bound, ?_⟩
    rw [h.lists _ _ (List.getElem?_eq_getElem bound), mem_indicesAt small]
    exact ⟨lt, rfl⟩

namespace Circuit

variable {c c' : Circuit F} {level : ℕ → ℕ}

/-! ## Levels of a circuit -/

/-- What holds of a circuit whose instructions were leveled as they were added, with the level of
    each instruction. -/
structure Leveled (c : Circuit F) (level : ℕ → ℕ) : Prop where
  decodes : ∀ p < c.instructions.length, ∃ op, c.operationAt p = some op ∧ c.InRange op
  words : c.callData.length ≤ c.instructions.length * wordRange
  scheduled : Levels.Scheduled level c.instructions.length c.levels.schedule
  noted : ∀ x : WireId, c.inputCount ≤ x.toNat → ∀ l,
    c.levels.level? x = some l ↔ ∃ p, c.Defines p x ∧ level p = l
  order : ∀ p op x, c.operationAt p = some op → x ∈ op.reads → ∀ q < p, c.Defines q x →
    level q < level p
  outputs : ∀ p call x, c.operationAt p = some (.hint call) → x ∈ call.outputs → c.Defines p x
  once : ∀ p call, c.operationAt p = some (.hint call) → call.outputs.Nodup

theorem Leveled.empty (kind : CircuitKind) (level : ℕ → ℕ) :
    (Circuit.empty F kind).Leveled level := by
  have noOperations (p : ℕ) : (Circuit.empty F kind).operationAt p = none := rfl
  have words : (Circuit.empty F kind).callData.length
      ≤ (Circuit.empty F kind).instructions.length * wordRange := Nat.zero_le _
  refine ⟨fun p hp => absurd hp (Nat.not_lt_zero p), words, ⟨?_, ?_⟩, ?_, ?_, ?_, ?_⟩
  · intro l indices listed
    simp [Circuit.empty, Levels.empty] at listed
  · intro p hp
    exact absurd hp (Nat.not_lt_zero p)
  · intro x noInput l
    constructor
    · intro h
      cases h
    · rintro ⟨p, ⟨-, ⟨op, opAt, -⟩, -⟩, -⟩
      exact absurd opAt (by simp [noOperations])
  · intro p op x opAt
    exact absurd opAt (by simp [noOperations])
  · intro p call x opAt
    exact absurd opAt (by simp [noOperations])
  · intro p call opAt
    exact absurd opAt (by simp [noOperations])

/-- A wire without a note is one that no instruction touches. -/
theorem Leveled.not_touches (h : c.Leveled level) {x : WireId} (noInput : c.inputCount ≤ x.toNat)
    (undefined : c.levels.level? x = none) (p : ℕ) : ¬ c.Touches p x := by
  intro touches
  obtain ⟨q, -, defines⟩ := exists_defines noInput touches
  have defined := (h.noted x noInput (level q)).2 ⟨q, defines, rfl⟩
  rw [undefined] at defined
  cases defined

/-! ## Growing tables -/

theorem Leveled.operationAt_grown (h : c.Leveled level) (grown : Grown c c') (p : ℕ) :
    c'.operationAt p = c.operationAt p := by
  by_cases bound : p < c.instructions.length
  · obtain ⟨op, found, -⟩ := h.decodes p bound
    rw [found]
    exact (Extends.of_grown grown).operationAt found
  · simp only [operationAt, grown.instructions, List.getElem?_eq_none (Nat.not_lt.1 bound)]
    rfl

/-- Instructions define what they did, as far as it is no input by now. -/
theorem Leveled.defines_grown (h : c.Leveled level) (grown : Grown c c') (p : ℕ) {x : WireId}
    (noInput : c'.inputCount ≤ x.toNat) : c'.Defines p x ↔ c.Defines p x := by
  have before := grown.inputs
  simp only [Defines, Touches, h.operationAt_grown grown, noInput, true_and,
    show c.inputCount ≤ x.toNat by omega]

/-- Where an instruction defines a wire, no more inputs are declared. -/
theorem Leveled.inputCount_grown (h : c.Leveled level) (grown : Grown c c') {p : ℕ} {x : WireId}
    (hp : c.Defines p x) : c'.inputCount = c.inputCount := by
  obtain ⟨noInput, ⟨op, found, mem⟩, -⟩ := hp
  obtain ⟨op', found', inRange⟩ := h.decodes p (lt_of_operationAt found)
  obtain rfl := Option.some.inj (found.symm.trans found')
  exact grown.inputCount_eq noInput (inRange.hasOperands.defines x mem)

theorem Leveled.grown (h : c.Leveled level) (grown : Grown c c') : c'.Leveled level := by
  have sameOperations := h.operationAt_grown grown
  have defines (p : ℕ) (x : WireId) (noInput : c'.inputCount ≤ x.toNat) :
      c'.Defines p x ↔ c.Defines p x := h.defines_grown grown p noInput
  refine ⟨fun p hp => ?_, ?_, ?_, fun x noInput l => ?_, fun p op x found mem q lt hq => ?_,
    fun p call x found mem => ?_, fun p call found => h.once p call (by rwa [← sameOperations])⟩
  · rw [grown.instructions] at hp
    obtain ⟨op, found, inRange⟩ := h.decodes p hp
    exact ⟨op, by rw [sameOperations, found], inRange.mono grown.coeffs grown.wireCount⟩
  · rw [grown.callData, grown.instructions]
    exact h.words
  · rw [grown.instructions, grown.levels]
    exact h.scheduled
  · have := grown.inputs
    rw [grown.levels, h.noted x (by omega) l]
    simp only [defines _ x noInput]
  · rw [sameOperations] at found
    exact h.order p op x found mem q lt ((defines q x hq.1).1 hq)
  · rw [sameOperations] at found
    have before := h.outputs p call x found mem
    rw [defines p x (by rw [h.inputCount_grown grown before]; exact before.1)]
    exact before

/-! ## Added instructions -/

/-- A circuit with one instruction more, placed above what it reads. It is noted for the wires that
    it is the first to touch. -/
structure Extended (c : Circuit F) (op : Operation) (noted : List WireId) (c' : Circuit F) :
    Prop where
  inputs : c'.inputCount = c.inputCount
  wires : c'.wireCount = c.wireCount
  coeffs : c'.coeffs = c.coeffs
  count : c'.instructions.length = c.instructions.length + 1
  before : ∀ p op, c.operationAt p = some op → c'.operationAt p = some op
  last : c'.operationAt c.instructions.length = some op
  inRange : c.InRange op
  words : c'.callData.length ≤ c.callData.length + wordRange
  levels : c'.levels = c.levels.commit c.nextIndex (c.levels.above c.inputCount op.reads) noted
  noted : ∀ x : WireId, c.inputCount ≤ x.toNat →
    (x ∈ noted ↔ x ∈ op.defines ∧ c.levels.level? x = none)
  outputs : ∀ call, op = .hint call → ∀ x ∈ call.outputs,
    c.inputCount ≤ x.toNat ∧ c.levels.level? x = none
  once : ∀ call, op = .hint call → call.outputs.Nodup

variable {op : Operation} {noted : List WireId}

theorem Extended.operationAt (ext : Extended c op noted c') (h : c.Leveled level) {p : ℕ}
    (hp : p < c.instructions.length) : c'.operationAt p = c.operationAt p := by
  obtain ⟨op', found, -⟩ := h.decodes p hp
  rw [found, ext.before p op' found]

theorem Extended.touches (ext : Extended c op noted c') (h : c.Leveled level) {p : ℕ}
    (hp : p < c.instructions.length) (x : WireId) : c'.Touches p x ↔ c.Touches p x := by
  simp only [Touches, ext.operationAt h hp]

/-- Instructions that were there before define what they did. -/
theorem Extended.defines (ext : Extended c op noted c') (h : c.Leveled level) {p : ℕ}
    (hp : p < c.instructions.length) (x : WireId) : c'.Defines p x ↔ c.Defines p x := by
  have earlier : (∀ q < p, ¬ c'.Touches q x) ↔ ∀ q < p, ¬ c.Touches q x :=
    forall₂_congr fun q lt => not_congr (ext.touches h (Nat.lt_trans lt hp) x)
  simp only [Defines, ext.inputs, ext.touches h hp x, earlier]

/-- The new instruction defines the wires for which it is noted. -/
theorem Extended.defines_last (ext : Extended c op noted c') (h : c.Leveled level) (x : WireId) :
    c'.Defines c.instructions.length x ↔ c.inputCount ≤ x.toNat ∧ x ∈ noted := by
  rw [Defines, ext.inputs]
  refine and_congr_right fun noInput => ?_
  rw [ext.noted x noInput]
  refine and_congr ?_ ?_
  · simp only [Touches, ext.last, Option.some.injEq, exists_eq_left']
  · constructor
    · intro untouched
      by_contra defined
      obtain ⟨l, definedAt⟩ := Option.ne_none_iff_exists'.1 defined
      obtain ⟨q, defines, -⟩ := (h.noted x noInput l).1 definedAt
      have lt := defines.lt_length
      exact untouched q lt ((ext.touches h lt x).2 defines.2.1)
    · intro undefined q lt touches
      exact h.not_touches noInput undefined q ((ext.touches h lt x).1 touches)

theorem Extended.cases (ext : Extended c op noted c') {p : ℕ} (hp : p < c'.instructions.length) :
    p < c.instructions.length ∨ p = c.instructions.length := by
  rw [ext.count] at hp
  omega

/-- An instruction that was there before stays on its level. -/
theorem update_of_lt {n p : ℕ} (hp : p < n) (l : ℕ) : Function.update level n l p = level p :=
  Function.update_of_ne (Nat.ne_of_lt hp) _ _

/-- A wire is noted for the instruction that defines it, be it the new one. -/
theorem Leveled.noted_extended (h : c.Leveled level) (ext : Extended c op noted c') {x : WireId}
    (noInput : c'.inputCount ≤ x.toNat) (l : ℕ) : c'.levels.level? x = some l ↔
      ∃ p, c'.Defines p x ∧ Function.update level c.instructions.length
        (c.levels.above c.inputCount op.reads) p = l := by
  rw [ext.inputs] at noInput
  rw [ext.levels, Levels.level?_commit]
  by_cases mem : x ∈ noted
  · have defines := (ext.defines_last h x).2 ⟨noInput, mem⟩
    rw [if_pos mem, Option.some.injEq]
    constructor
    · rintro rfl
      exact ⟨_, defines, Function.update_self ..⟩
    · rintro ⟨p, hp, rfl⟩
      rw [hp.unique defines, Function.update_self]
  · rw [if_neg mem, h.noted x noInput l]
    constructor
    · rintro ⟨p, hp, rfl⟩
      exact ⟨p, (ext.defines h hp.lt_length x).2 hp, update_of_lt hp.lt_length _⟩
    · rintro ⟨p, hp, rfl⟩
      obtain lt | rfl := ext.cases hp.lt_length
      · exact ⟨p, (ext.defines h lt x).1 hp, (update_of_lt lt _).symm⟩
      · exact absurd ((ext.defines_last h x).1 hp).2 mem

/-- What reads a wire is above what defines it, also if it is the new instruction. -/
theorem Leveled.order_extended (h : c.Leveled level) (ext : Extended c op noted c') {p q : ℕ}
    {op' : Operation} {x : WireId} (found : c'.operationAt p = some op') (mem : x ∈ op'.reads)
    (lt : q < p) (defines : c'.Defines q x) :
    Function.update level c.instructions.length (c.levels.above c.inputCount op.reads) q
      < Function.update level c.instructions.length (c.levels.above c.inputCount op.reads) p := by
  obtain lt' | rfl := ext.cases (lt_of_operationAt found)
  · have bound := Nat.lt_trans lt lt'
    rw [ext.operationAt h lt'] at found
    rw [update_of_lt lt', update_of_lt bound]
    exact h.order p op' x found mem q lt ((ext.defines h bound x).1 defines)
  · obtain rfl := Option.some.inj (found.symm.trans ext.last)
    rw [update_of_lt lt, Function.update_self]
    have before := (ext.defines h lt x).1 defines
    exact Levels.lt_above mem before.1 ((h.noted x before.1 _).2 ⟨q, before, rfl⟩)

/-- An instruction that is added keeps the levels in order. -/
theorem Leveled.extended (h : c.Leveled level) (ext : Extended c op noted c') :
    c'.Leveled (Function.update level c.instructions.length
      (c.levels.above c.inputCount op.reads)) := by
  refine ⟨fun p hp => ?_, ?_, ?_, fun x noInput l => h.noted_extended ext noInput l,
    fun p op' x found mem q lt defines => h.order_extended ext found mem lt defines,
    fun p call x found mem => ?_, fun p call found => ?_⟩
  · obtain lt | rfl := ext.cases hp
    · obtain ⟨op', found, inRange⟩ := h.decodes p lt
      exact ⟨op', ext.before p op' found, inRange.mono (by rw [ext.coeffs]) (by rw [ext.wires])⟩
    · exact ⟨op, ext.last, ext.inRange.mono (by rw [ext.coeffs]) (by rw [ext.wires])⟩
  · have before := h.words
    have added := ext.words
    rw [ext.count, Nat.add_mul, Nat.one_mul]
    omega
  · rw [ext.count, ext.levels]
    exact h.scheduled.place _
  · obtain lt | rfl := ext.cases (lt_of_operationAt found)
    · rw [ext.operationAt h lt] at found
      exact (ext.defines h lt x).2 (h.outputs p call x found mem)
    · obtain rfl := Option.some.inj (found.symm.trans ext.last)
      obtain ⟨noInput, undefined⟩ := ext.outputs call rfl x mem
      exact (ext.defines_last h x).2 ⟨noInput, (ext.noted x noInput).2 ⟨mem, undefined⟩⟩
  · obtain lt | rfl := ext.cases (lt_of_operationAt found)
    · exact h.once p call (by rwa [ext.operationAt h lt] at found)
    · exact ext.once call (Option.some.inj (ext.last.symm.trans found))

/-! ## Edits -/

theorem Addition.extended {id : BlueprintId} {b : Blueprint} {words : CallData}
    (h : c.Addition op noted id b words) (buffer : c.callData.length < 2 ^ 64)
    (names : OrderedMap HintId String) :
    Extended c op noted (c.added op noted id b words names) := by
  refine ⟨rfl, rfl, rfl, ?_, fun p op' opAt => (Extends.added ..).operationAt opAt, ?_, h.inRange,
    ?_, rfl, fun x noInput => ?_, h.outputs, h.once⟩
  · rw [added, appended, List.length_append, List.length_singleton]
  · exact operationAt_eq_some.2 ⟨_, List.getElem?_concat_length, h.operationOf_last buffer _ names⟩
  · have := Blueprint.lt_of_callDataLength h.length
    rw [added, appended, List.length_append]
    omega
  · rw [h.noted]
    simp only [noInput, true_and]

theorem length_lt_of_append {α : Type} {l : List α} {x : α} {n : ℕ} (h : (l ++ [x]).length ≤ n) :
    l.length < n := by
  rw [List.length_append, List.length_singleton] at h
  omega

/-- Where there is a number for one more instruction, there is one for its place in the buffer. -/
theorem Leveled.buffer_lt (h : c.Leveled level) {i : Instruction}
    (small : (c.instructions ++ [i]).length ≤ wordRange) : c.callData.length < 2 ^ 64 := by
  have room := length_lt_of_append small
  have := h.words
  unfold wordRange at this room
  omega

theorem length_instructions_le {e : Edit F} (outcome : Edit.Outcome c e c') :
    c.instructions.length ≤ c'.instructions.length := by
  cases outcome with
  | grown grown => rw [grown.instructions]
  | r1c | gate | hint =>
    change c.instructions.length ≤ (c.instructions ++ [_]).length
    rw [List.length_append]
    omega
  | levels replayed => exact Nat.le_refl _

/-- What holds of the empty circuit, and is kept when tables grow and when an instruction is added,
    holds of every circuit that was built without given levels. Instructions are numbered by words,
    so there must be no more of them. -/
theorem Built.exists_level {P : Circuit F → (ℕ → ℕ) → Prop}
    (leveled : ∀ {c level}, P c level → c.Leveled level)
    (empty : ∀ kind, P (.empty F kind) fun _ => 0)
    (grown : ∀ {c c' level}, P c level → Grown c c' → P c' level)
    (extended : ∀ {c c' level op noted}, P c level → Extended c op noted c' →
      P c' (Function.update level c.instructions.length (c.levels.above c.inputCount op.reads)))
    (h : c.Built) (small : c.instructions.length ≤ wordRange) : ∃ level, P c level := by
  induction h with
  | empty kind => exact ⟨_, empty kind⟩
  | edit e automatic _ ih =>
    next c _ =>
    have outcome := e.apply_outcome c
    obtain ⟨level, holds⟩ := ih (Nat.le_trans (length_instructions_le outcome) small)
    obtain growth | ⟨schedule, levels, rfl, -⟩ |
      ⟨op, noted, id, b, words, names, addition, same⟩ := outcome_cases outcome
    · exact ⟨level, grown holds growth⟩
    · cases automatic
    · rw [same] at small ⊢
      have buffer := (leveled holds).buffer_lt small
      exact ⟨_, extended holds (addition.extended buffer names)⟩

/-- The levels of a circuit that was built without given ones. -/
theorem Built.leveled (h : c.Built) (small : c.instructions.length ≤ wordRange) :
    ∃ level, c.Leveled level :=
  h.exists_level id (fun kind => .empty kind _) Leveled.grown Leveled.extended small

end Circuit

end CircuitWitness
