import CircuitWitness.Proofs.Blueprint.Encoding

/-!
# Packing is exact

What a blueprint packs tells its own length and is unpacked as what was packed, wherever the words
stand and whatever the destination held. The other way round, words that can be unpacked are those
that the result is packed as: no word is free.

Results:
* `R1C.words_ofWords`, `Gate.words_ofWords`, `HintCall.words_read`: words that can be read are those
  of what was read.
* `Packing.Delimits.of_r1c`, `Packing.Delimits.of_gate`, `Packing.Delimits.of_hint`: what the words
  of an instruction tell.
* `generic_selfDelimiting`: the generic layouts hold everything that is short enough.
* `unpacking_exact`: words that can be unpacked are those of the result, in every layout.
-/

namespace CircuitWitness

/-! ## Words that can be read -/

theorem Term.flatMap_words_ofWords {l : List UInt32} (even : l.length % 2 = 0) :
    (ofWords l).flatMap words = l := by
  induction l using ofWords.induct with
  | case1 c w rest ih =>
    have rest_even : rest.length % 2 = 0 := by
      rw [List.length_cons, List.length_cons] at even
      omega
    rw [ofWords, List.flatMap_cons, ih rest_even]
    rfl
  | case2 l short =>
    obtain _ | ⟨c, _ | ⟨w, rest⟩⟩ := l
    · rfl
    · cases even
    · exact absurd rfl (short c w rest)

theorem Term.length_ofWords {l : List UInt32} (even : l.length % 2 = 0) :
    2 * (ofWords l).length = l.length := by
  rw [← R1C.length_flatMap_words, flatMap_words_ofWords even]

theorem R1C.ofWords_ok {words : CallData} {r : R1C} (h : ofWords words = .ok r) :
    ∃ total left right body, words = total :: left :: right :: body ∧
      total.toNat = body.length + headerLength ∧ body.length % 2 = 0 ∧
      left.toNat + right.toNat ≤ body.length / 2 ∧
      r = ⟨(Term.ofWords body).take left.toNat,
        ((Term.ofWords body).drop left.toNat).take right.toNat,
        ((Term.ofWords body).drop left.toNat).drop right.toNat⟩ := by
  unfold ofWords at h
  split at h
  · next total left right body =>
    dsimp only at h
    split at h
    · cases h
    · next counted =>
      split at h
      · cases h
      · next even =>
        split at h
        · cases h
        · next fits =>
          exact ⟨total, left, right, body, rfl, Decidable.not_not.1 counted,
            Decidable.not_not.1 even, Nat.not_lt.1 fits, (Except.ok.inj h).symm⟩
  · cases h

/-- Words that can be read as a rank-one constraint are the words of that constraint, and the first
    of them counts them. -/
theorem R1C.words_ofWords {words : CallData} {r : R1C} (h : ofWords words = .ok r) :
    r.words = words ∧ r.wordCount < wordRange := by
  obtain ⟨total, left, right, body, rfl, counted, even, fits, rfl⟩ := ofWords_ok h
  have double := Term.length_ofWords even
  have count : wordCount ⟨(Term.ofWords body).take left.toNat,
      ((Term.ofWords body).drop left.toNat).take right.toNat,
      ((Term.ofWords body).drop left.toNat).drop right.toNat⟩ = total.toNat := by
    simp only [wordCount, List.length_take, List.length_drop]
    omega
  refine ⟨?_, by rw [count]; exact total.toNat_lt⟩
  have lengths : left.toNat ≤ (Term.ofWords body).length ∧
      right.toNat ≤ ((Term.ofWords body).drop left.toNat).length := by
    rw [List.length_drop]
    omega
  rw [R1C.words, count, List.length_take_of_le lengths.1, List.length_take_of_le lengths.2, terms,
    List.append_assoc, List.take_append_drop, List.take_append_drop,
    Term.flatMap_words_ofWords even]
  simp only [UInt32.ofNat_toNat, List.cons_append, List.nil_append]

/-- Words that can be read as a gate are the words of that gate, which has the shape of the
    layout and is what the layout makes of it. -/
theorem Gate.words_ofWords {b : Blueprint} {words : CallData} {g : Gate}
    (h : ofWords b words = .ok g) :
    g.words b = words ∧ g.shapeFault? b = none ∧ b.recoded g = g := by
  unfold ofWords at h
  split at h
  · next tag =>
    split at h
    · next commitment found =>
      obtain rfl := Except.ok.inj h
      rw [Commitment.ofWord?_eq_some_iff] at found
      exact ⟨by rw [found]; rfl, rfl, rfl⟩
    · cases h
  · obtain rfl := Except.ok.inj h
    exact ⟨rfl, rfl, rfl⟩
  · obtain rfl := Except.ok.inj h
    exact ⟨rfl, rfl, rfl⟩
  · obtain rfl := Except.ok.inj h
    refine ⟨rfl, ?_, rfl⟩
    simp [shapeFault?, bit, empty, CoeffId.zero]
  · cases h

namespace HintCall

/-- Words from which inputs can be read are the words of these inputs, with the rest after them. -/
theorem readInputs_ok {n : Nat} {body rest : CallData} {call call' : HintCall}
    (h : (readInputs n body).run call = .ok rest call') :
    ∃ es, es.length = n ∧ body = es.flatMap inputWords ++ rest ∧
      call' = { call with inputs := call.inputs ++ es } := by
  induction n generalizing body call with
  | zero =>
    obtain ⟨rfl, rfl⟩ := pure_ok.1 h
    exact ⟨[], rfl, rfl, by rw [List.append_nil]⟩
  | succ n ih =>
    cases body with
    | nil => cases h
    | cons length body =>
      unfold readInputs at h
      dsimp only at h
      split at h
      · cases h
      · next fits =>
        obtain ⟨_, call₁, pushed, h⟩ := bind_ok.1 h
        obtain rfl := modify_ok.1 pushed
        obtain ⟨es, rfl, split, rfl⟩ := ih h
        have taken : (body.take (2 * length.toNat)).length = 2 * length.toNat :=
          List.length_take_of_le (Nat.not_lt.1 fits)
        have even : (body.take (2 * length.toNat)).length % 2 = 0 := by omega
        have double := Term.length_ofWords even
        have count : (Term.ofWords (body.take (2 * length.toNat))).length = length.toNat := by
          omega
        refine ⟨Term.ofWords (body.take (2 * length.toNat)) :: es, rfl, ?_, ?_⟩
        · rw [List.flatMap_cons, inputWords, count, UInt32.ofNat_toNat,
            Term.flatMap_words_ofWords even, List.cons_append, List.cons_append,
            List.append_assoc, ← split, List.take_append_drop]
        · simp only [List.append_assoc, List.cons_append, List.nil_append]

theorem read_ok {words : CallData} {old call : HintCall}
    (h : (HintCall.read words).run old = .ok () call) :
    ∃ total count : UInt32, total.toNat = words.length ∧ call.inputs.length = count.toNat ∧
      words = total :: call.hint :: count ::
        (call.inputs.flatMap inputWords ++ call.outputs) := by
  obtain ⟨_, cleared, emptied, h⟩ := bind_ok.1 h
  obtain rfl : cleared = empty := by simpa [eq_comm] using emptied
  match words with
  | [] | [_] | [_, _] => cases h
  | total :: hint :: count :: body =>
    dsimp only at h
    split at h
    · cases h
    · next counted =>
      obtain ⟨_, named, setHint, h⟩ := bind_ok.1 h
      obtain rfl := modify_ok.1 setHint
      obtain ⟨outputs, filled, read, h⟩ := bind_ok.1 h
      obtain ⟨es, number, rfl, rfl⟩ := readInputs_ok read
      obtain rfl := modify_ok.1 h
      exact ⟨total, count, Decidable.not_not.1 counted, number, rfl⟩

/-- Words that can be read as a hint call are the words of that call, and the first of them counts
    them. -/
theorem words_read {words : CallData} {old call : HintCall}
    (h : (HintCall.read words).run old = .ok () call) :
    call.words = words ∧ call.wordCount < wordRange := by
  obtain ⟨total, count, counted, number, split⟩ := read_ok h
  have sameCount : call.wordCount = total.toNat := by
    rw [counted, split, wordCount, ← length_flatMap_inputWords]
    simp only [List.length_cons, List.length_append]
    omega
  refine ⟨?_, by rw [sameCount]; exact total.toNat_lt⟩
  rw [split, HintCall.words, sameCount, number, UInt32.ofNat_toNat, UInt32.ofNat_toNat]
  rfl

end HintCall

/-! ## Packings -/

namespace Blueprint

variable {α : Type} {b : Blueprint}

/-- How a blueprint packs the instructions of one kind, and how it unpacks them. -/
structure Packing (α : Type) where
  blueprint : Blueprint
  compress : α → Writer Unit
  decompress : CallData → EStateM Error α Unit

namespace Packing

/-- How a blueprint packs rank-one constraints. -/
def r1c (b : Blueprint) : Packing R1C := ⟨b, b.compressR1C, b.decompressR1C⟩

/-- How a blueprint packs gates. -/
def gate (b : Blueprint) : Packing Gate := ⟨b, b.compressGate, b.decompressGate⟩

/-- How a blueprint packs hint calls. -/
def hint (b : Blueprint) : Packing HintCall := ⟨b, b.compressHint, b.decompressHint⟩

/-- What some words have to do with an instruction: it is packed as them, after whatever the buffer
    holds; they tell their own length, whatever follows them; and they are unpacked as the
    instruction, whatever the destination held. -/
structure Delimits (p : Packing α) (x : α) (words : CallData) : Prop where
  packed : ∀ before, (p.compress x).run before = .ok () (before ++ words)
  counted : ∀ after, p.blueprint.callDataLength (words ++ after) = .ok words.length
  unpacked : ∀ old, (p.decompress words).run old = .ok () x

theorem Delimits.of_r1c {r : R1C} (kind : b.kind = .r1c) (small : r.wordCount < wordRange) :
    (r1c b).Delimits r r.words where
  packed _ := compressR1C_ok.2 ⟨kind, small, rfl⟩
  counted after := callDataLength_append after (callDataLength_r1c kind small)
  unpacked _ := decompressR1C_ok.2 ⟨kind, R1C.ofWords_words small⟩

/-- A gate is unpacked as it was if its layout leaves nothing out. -/
theorem Delimits.of_gate {g : Gate} (kind : b.kind = .gate) (fits : g.shapeFault? b = none)
    (same : b.recoded g = g) : (gate b).Delimits g (g.words b) where
  packed _ := compressGate_ok.2 ⟨kind, fits, rfl⟩
  counted after := callDataLength_append after (callDataLength_gate kind)
  unpacked _ := decompressGate_ok.2 ⟨kind, by rw [ofWords_words kind, same]⟩

theorem Delimits.of_hint {call : HintCall} (kind : b.kind = .hint)
    (small : call.wordCount < wordRange) : (hint b).Delimits call call.words where
  packed _ := compressHint_ok.2 ⟨kind, small, rfl⟩
  counted after := callDataLength_append after (callDataLength_hint kind small)
  unpacked _ := decompressHint_ok.2 ⟨kind, HintCall.read_words small⟩

/-- Instructions have only one word list each. -/
theorem Delimits.unique {p : Packing α} {x : α} {words words' : CallData}
    (h : p.Delimits x words) (h' : p.Delimits x words') : words = words' := by
  have packed := (h.packed []).symm.trans (h'.packed [])
  simpa using packed

/-! ## What was packed is unpacked -/

/-- A packing that packs every instruction as words that delimit it. If there are more of them than
    a word can count, it refuses the instruction and leaves the buffer alone. -/
def SelfDelimiting (p : Packing α) (words : α → CallData) : Prop :=
  ∀ x, ((words x).length < wordRange → p.Delimits x (words x)) ∧
    (wordRange ≤ (words x).length → ∀ before, (p.compress x).run before
      = .error (.wordOverflow p.blueprint (words x).length) before)

theorem selfDelimiting_r1c : (r1c .genericR1C).SelfDelimiting R1C.words := by
  intro r
  rw [r.length_words]
  refine ⟨.of_r1c rfl, fun large before => ?_⟩
  change r.write.run before = _
  rw [R1C.write, EStateM.run_bind, appendLength_overflow large]
  rfl

theorem selfDelimiting_gate : (gate .genericGate).SelfDelimiting (Gate.words · .genericGate) := by
  intro g
  refine ⟨fun _ => .of_gate rfl rfl rfl, fun large => ?_⟩
  have nine : (g.words .genericGate).length = 9 := rfl
  exact absurd large (by rw [nine]; decide)

theorem selfDelimiting_hint : (hint .genericHint).SelfDelimiting HintCall.words := by
  intro call
  rw [call.length_words]
  refine ⟨.of_hint rfl, fun large before => ?_⟩
  change call.write.run before = _
  rw [HintCall.write, EStateM.run_bind, appendLength_overflow large]
  rfl

/-! ## What is unpacked was packed -/

/-- A packing without free words: words that can be unpacked are those that the result is packed as,
    so no others are unpacked as the same. -/
structure Exact (p : Packing α) : Prop where
  repacked : ∀ words old x, (p.decompress words).run old = .ok () x → p.Delimits x words
  injective : ∀ words words' old old' x, (p.decompress words).run old = .ok () x →
    (p.decompress words').run old' = .ok () x → words = words'

theorem Exact.of_repacked {p : Packing α}
    (h : ∀ words old x, (p.decompress words).run old = .ok () x → p.Delimits x words) :
    p.Exact where
  repacked := h
  injective _ _ _ _ _ run run' := (h _ _ _ run).unique (h _ _ _ run')

theorem exact_r1c (b : Blueprint) : (r1c b).Exact := .of_repacked fun words old r run => by
  obtain ⟨kind, read⟩ := decompressR1C_ok.1 run
  obtain ⟨rfl, small⟩ := R1C.words_ofWords read
  exact .of_r1c kind small

theorem exact_gate (b : Blueprint) : (gate b).Exact := .of_repacked fun words old g run => by
  obtain ⟨kind, read⟩ := decompressGate_ok.1 run
  obtain ⟨rfl, fits, same⟩ := Gate.words_ofWords read
  exact .of_gate kind fits same

theorem exact_hint (b : Blueprint) : (hint b).Exact := .of_repacked fun words old call run => by
  obtain ⟨kind, read⟩ := decompressHint_ok.1 run
  obtain ⟨rfl, small⟩ := HintCall.words_read read
  exact .of_hint kind small

end Packing

/-- The generic layouts take every instruction whose words can be counted by one of them. Its words
    are appended and nothing else is changed; they tell their own length, whatever follows; and they
    are unpacked as the instruction, whatever the destination held. An instruction with more words
    is refused before anything is appended. -/
theorem generic_selfDelimiting :
    (Packing.r1c .genericR1C).SelfDelimiting R1C.words ∧
      (Packing.gate .genericGate).SelfDelimiting (Gate.words · .genericGate) ∧
      (Packing.hint .genericHint).SelfDelimiting HintCall.words :=
  ⟨Packing.selfDelimiting_r1c, Packing.selfDelimiting_gate, Packing.selfDelimiting_hint⟩

/-- A constraint with empty expressions, a hint call with an empty input, and a constraint with more
    terms than a word can count. -/
theorem generic_selfDelimiting_samples :
    (Packing.r1c .genericR1C).Delimits ⟨[], [⟨1, 2⟩], []⟩ [5, 0, 1, 1, 2] ∧
      (Packing.hint .genericHint).Delimits ⟨9, [[⟨1, 2⟩], []], [3, 4]⟩
        [9, 9, 2, 1, 1, 2, 0, 3, 4] ∧
      ∀ before, (compressR1C .genericR1C ⟨List.replicate wordRange ⟨1, 2⟩, [], []⟩).run before
        = .error (.wordOverflow .genericR1C (3 + 2 * wordRange)) before := by
  obtain ⟨r1c, -, hint⟩ := generic_selfDelimiting
  have refused (l : LinearExpr) (long : l.length = wordRange) (before : CallData) :
      (compressR1C .genericR1C ⟨l, [], []⟩).run before
        = .error (.wordOverflow .genericR1C (3 + 2 * wordRange)) before := by
    have length : (R1C.words ⟨l, [], []⟩).length = 3 + 2 * wordRange := by
      simp only [R1C.length_words, R1C.wordCount, R1C.headerLength, long, List.length_nil,
        Nat.add_zero]
    have refused := (r1c ⟨l, [], []⟩).2 (by omega) before
    rwa [length] at refused
  exact ⟨(r1c _).1 (by decide), (hint _).1 (by decide), refused _ List.length_replicate⟩

/-- Whatever the blueprint, words that are unpacked are those that the result is packed as, and they
    tell their own length. So no two word lists are unpacked as the same instruction. -/
theorem unpacking_exact (b : Blueprint) :
    (Packing.r1c b).Exact ∧ (Packing.gate b).Exact ∧ (Packing.hint b).Exact :=
  ⟨Packing.exact_r1c b, Packing.exact_gate b, Packing.exact_hint b⟩

/-- The words of a bit and of a hint call with an empty input. -/
theorem unpacking_exact_samples :
    (∀ before, (compressGate .bool (.bit 5 1 3)).run before = .ok () (before ++ [5, 1, 3])) ∧
      (∀ words old, (decompressGate .bool words).run old = .ok () (.bit 5 1 3) →
        words = [5, 1, 3]) ∧
      ∀ before, (compressHint .genericHint ⟨9, [[]], [4]⟩).run before
        = .ok () (before ++ [5, 9, 1, 0, 4]) := by
  obtain ⟨-, gate, -⟩ := unpacking_exact .bool
  obtain ⟨-, -, hint⟩ := unpacking_exact .genericHint
  have bit : ((Packing.gate .bool).decompress [5, 1, 3]).run .empty = .ok () (.bit 5 1 3) := rfl
  have call : ((Packing.hint .genericHint).decompress [5, 9, 1, 0, 4]).run .empty
      = .ok () ⟨9, [[]], [4]⟩ := rfl
  exact ⟨(gate.repacked _ _ _ bit).packed,
    fun words old run => gate.injective _ _ _ _ _ run bit, (hint.repacked _ _ _ call).packed⟩

end Blueprint

end CircuitWitness
