import CircuitWitness.Blueprint.Encoding
import CircuitWitness.Proofs.Stateful

/-!
# Words in a shared buffer

Packing appends words and does nothing else to the buffer, even if it fails half way. The words
that a blueprint appended are read back as what was packed, whatever follows them.

Results:
* `compressR1C_keeps`, `compressGate_keeps`, `compressHint_keeps`: the words before stay.
* `compressR1C_ok`, `compressGate_ok`, `compressHint_ok`: the words that are appended.
* `r1cOf_words`, `gateOf_words`, `hintOf_words`: these words are read back.
* `callDataLength_append`: the length of an instruction does not depend on what follows it.
-/

namespace CircuitWitness

/-- A number that fits into a word is the number of that word. -/
theorem toNat_word {n : Nat} (h : n < wordRange) : (UInt32.ofNat n).toNat = n := by
  rw [UInt32.toNat_ofNat']
  exact Nat.mod_eq_of_lt h

/-- Words have different numbers if a list has one of them and not the other. -/
theorem toNat_ne_of_notMem {l : List UInt32} {x y : UInt32} (hx : x ∈ l) (hy : y ∉ l) :
    x.toNat ≠ y.toNat := by
  intro same
  rw [UInt32.toNat_inj.1 same] at hx
  exact hy hx

theorem R1C.length_words (r : R1C) : r.words.length = r.wordCount := by
  simp only [R1C.words, List.length_append, R1C.length_flatMap_words, R1C.terms, R1C.wordCount,
    R1C.headerLength, List.length_cons, List.length_nil]

namespace Blueprint

variable {α β : Type}

/-! ## Appending -/

/-- A program that leaves the words before it. -/
def Keeps (x : Writer α) : Prop := ∀ buffer, buffer <+: stateAfter (x.run buffer)

theorem Keeps.pure (a : α) : Keeps (pure a) := fun buffer => List.prefix_refl buffer

theorem Keeps.throw (e : Error) : Keeps (throw e : Writer α) :=
  fun buffer => List.prefix_refl buffer

theorem Keeps.bind {x : Writer α} {f : α → Writer β} (hx : Keeps x) (hf : ∀ a, Keeps (f a)) :
    Keeps (x >>= f) := by
  intro buffer
  have first := hx buffer
  rw [EStateM.run_bind]
  cases h : x.run buffer with
  | ok a words =>
    rw [h] at first
    exact first.trans (hf a words)
  | error e words =>
    rw [h] at first
    exact first

theorem Keeps.append (words : List UInt32) : Keeps (append words) :=
  fun buffer => List.prefix_append buffer words

theorem Keeps.appendLength (b : Blueprint) (n : Nat) : Keeps (appendLength b n) := by
  unfold Blueprint.appendLength
  split
  · exact .append _
  · exact .throw _

theorem Keeps.error {x : Writer α} (h : Keeps x) {buffer words : CallData} {e : Error}
    (run : x.run buffer = .error e words) : buffer <+: words := by
  simpa [run] using h buffer

theorem append_ok {words buffer buffer' : List UInt32} {u : Unit} :
    (append words).run buffer = .ok u buffer' ↔ buffer' = buffer ++ words := modify_ok

theorem appendLength_ok {b : Blueprint} {n : Nat} {buffer buffer' : CallData} {u : Unit} :
    (appendLength b n).run buffer = .ok u buffer' ↔
      n < wordRange ∧ buffer' = buffer ++ [UInt32.ofNat n] := by
  unfold appendLength
  split
  · next small => simp [append_ok, small]
  · next large =>
    simp only [large, false_and, iff_false]
    rintro ⟨⟩

theorem appendLength_overflow {b : Blueprint} {n : Nat} (large : wordRange ≤ n)
    (buffer : CallData) : (appendLength b n).run buffer = .error (.wordOverflow b n) buffer := by
  rw [appendLength, if_neg (Nat.not_lt.2 large)]
  rfl

/-! ## Rank-one constraints -/

theorem compressR1C_keeps (b : Blueprint) (r : R1C) : Keeps (b.compressR1C r) := by
  unfold compressR1C
  split
  · exact (Keeps.appendLength _ _).bind fun _ => (Keeps.appendLength _ _).bind fun _ =>
      (Keeps.appendLength _ _).bind fun _ => .append _
  · exact .throw _
  · exact .throw _

theorem compressR1C_ok {b : Blueprint} {r : R1C} {buffer buffer' : CallData} {u : Unit} :
    (b.compressR1C r).run buffer = .ok u buffer' ↔
      b.kind = .r1c ∧ r.wordCount < wordRange ∧ buffer' = buffer ++ r.words := by
  unfold compressR1C
  cases kind : b.kind with
  | gate | hint =>
    constructor
    · intro h
      cases h
    · rintro ⟨⟨⟩, -⟩
  | r1c =>
    simp only [R1C.write, bind_ok, appendLength_ok, append_ok, true_and]
    constructor
    · rintro ⟨_, _, ⟨small, rfl⟩, _, _, ⟨-, rfl⟩, _, _, ⟨-, rfl⟩, rfl⟩
      exact ⟨small, by simp [R1C.words]⟩
    · rintro ⟨small, rfl⟩
      have parts := small
      unfold R1C.wordCount at parts
      refine ⟨(), _, ⟨small, rfl⟩, (), _, ⟨by omega, rfl⟩, (), _, ⟨by omega, rfl⟩, ?_⟩
      simp [R1C.words]

theorem contentAfter_ok {ε σ : Type} {x : EStateM ε σ Unit} {start s : σ} :
    contentAfter x start = .ok s ↔ x.run start = .ok () s := by
  unfold contentAfter
  cases x.run start <;> simp

theorem decompressR1C_ok {b : Blueprint} {words : CallData} {old r : R1C} :
    (b.decompressR1C words).run old = .ok () r ↔ b.kind = .r1c ∧ R1C.ofWords words = .ok r := by
  unfold decompressR1C
  cases kind : b.kind with
  | gate | hint =>
    constructor
    · intro h
      cases h
    · rintro ⟨⟨⟩, -⟩
  | r1c =>
    cases R1C.ofWords words with
    | ok r' => simp
    | error fault =>
      constructor
      · intro h
        cases h
      · rintro ⟨-, ⟨⟩⟩

theorem r1cOf_words {b : Blueprint} {r : R1C} (kind : b.kind = .r1c)
    (small : r.wordCount < wordRange) : b.r1cOf r.words = .ok r :=
  contentAfter_ok.2 (decompressR1C_ok.2 ⟨kind, R1C.ofWords_words small⟩)

/-! ## Gates -/

theorem compressGate_keeps (b : Blueprint) (g : Gate) : Keeps (b.compressGate g) := by
  unfold compressGate
  split
  · split
    · exact .throw _
    · exact .append _
  · exact .throw _
  · exact .throw _

theorem compressGate_ok {b : Blueprint} {g : Gate} {buffer buffer' : CallData} {u : Unit} :
    (b.compressGate g).run buffer = .ok u buffer' ↔
      b.kind = .gate ∧ g.shapeFault? b = none ∧ buffer' = buffer ++ g.words b := by
  unfold compressGate
  cases kind : b.kind with
  | r1c | hint =>
    constructor
    · intro h
      cases h
    · rintro ⟨⟨⟩, -⟩
  | gate =>
    cases fault : g.shapeFault? b with
    | none => simp only [append_ok, true_and]
    | some fault =>
      constructor
      · intro h
        cases h
      · rintro ⟨-, ⟨⟩, -⟩

/-- The gate that a blueprint makes of a gate: the coefficients that the layout leaves out are
    those that it implies. -/
def recoded (b : Blueprint) (g : Gate) : Gate :=
  match b with
  | .mul => .product g.qm g.xa g.xb g.xc
  | .add => .sum g.xa g.xb g.xc g.ql g.qr g.qc
  | .bool => .bit g.xa g.ql g.qm
  | .genericGate | .genericR1C | .genericHint => g

theorem ofWords_words {b : Blueprint} {g : Gate} (kind : b.kind = .gate) :
    Gate.ofWords b (g.words b) = .ok (b.recoded g) := by
  cases b with
  | genericR1C => cases kind
  | genericHint => cases kind
  | genericGate => exact Gate.ofWords_words_generic g
  | mul => rfl
  | add => rfl
  | bool => rfl

theorem decompressGate_ok {b : Blueprint} {words : CallData} {old g : Gate} :
    (b.decompressGate words).run old = .ok () g ↔
      b.kind = .gate ∧ Gate.ofWords b words = .ok g := by
  unfold decompressGate
  cases kind : b.kind with
  | r1c | hint =>
    constructor
    · intro h
      cases h
    · rintro ⟨⟨⟩, -⟩
  | gate =>
    cases Gate.ofWords b words with
    | ok g' => simp
    | error fault =>
      constructor
      · intro h
        cases h
      · rintro ⟨-, ⟨⟩⟩

theorem gateOf_words {b : Blueprint} {g : Gate} (kind : b.kind = .gate) :
    b.gateOf (g.words b) = .ok (b.recoded g) :=
  contentAfter_ok.2 (decompressGate_ok.2 ⟨kind, ofWords_words kind⟩)

end Blueprint

/-! ## Hint calls -/

namespace HintCall

open Blueprint

/-- The words of an input, its length in front. -/
def inputWords (e : LinearExpr) : List UInt32 := UInt32.ofNat e.length :: e.flatMap Term.words

/-- The words of a call. -/
def words (h : HintCall) : List UInt32 :=
  [UInt32.ofNat h.wordCount, h.hint, UInt32.ofNat h.inputs.length]
    ++ h.inputs.flatMap inputWords ++ h.outputs

theorem length_flatMap_inputWords (es : List LinearExpr) :
    (es.flatMap inputWords).length = es.foldr (fun e n => 1 + 2 * e.length + n) 0 := by
  induction es with
  | nil => rfl
  | cons e es ih =>
    rw [List.flatMap_cons, List.length_append, ih, List.foldr_cons, inputWords, List.length_cons,
      R1C.length_flatMap_words]
    omega

theorem length_words (h : HintCall) : h.words.length = h.wordCount := by
  simp only [words, List.length_append, length_flatMap_inputWords, wordCount, List.length_cons,
    List.length_nil]

theorem writeInputs_ok {es : List LinearExpr} {buffer buffer' : CallData} {u : Unit} :
    (es.forM writeInput).run buffer = .ok u buffer' ↔
      (∀ e ∈ es, e.length < wordRange) ∧ buffer' = buffer ++ es.flatMap inputWords := by
  induction es generalizing buffer with
  | nil => simp [eq_comm]
  | cons e es ih =>
    have step : (e :: es).forM writeInput = writeInput e >>= fun _ => es.forM writeInput := rfl
    rw [step, bind_ok]
    simp only [ih, writeInput, bind_ok, appendLength_ok, append_ok, List.forall_mem_cons]
    constructor
    · rintro ⟨_, _, ⟨_, _, ⟨small, rfl⟩, rfl⟩, rest, rfl⟩
      exact ⟨⟨small, rest⟩, by simp [inputWords]⟩
    · rintro ⟨⟨small, rest⟩, rfl⟩
      exact ⟨(), _, ⟨(), _, ⟨small, rfl⟩, rfl⟩, rest, by simp [inputWords]⟩

/-- Reading as many inputs as were written gives them back, whatever follows them. -/
theorem readInputs_words {es : List LinearExpr} (rest : CallData) (call : HintCall)
    (small : ∀ e ∈ es, e.length < wordRange) :
    (readInputs es.length (es.flatMap inputWords ++ rest)).run call
      = .ok rest { call with inputs := call.inputs ++ es } := by
  induction es generalizing call with
  | nil => simp [readInputs]
  | cons e es ih =>
    have len := toNat_word (small e List.mem_cons_self)
    have two := R1C.length_flatMap_words e
    simp only [List.length_cons, List.flatMap_cons, inputWords, List.cons_append, readInputs, len,
      List.append_assoc]
    rw [if_neg (by rw [List.length_append, two]; omega), ← two, List.take_left, List.drop_left,
      Term.ofWords_flatMap_words]
    simp only [EStateM.run_bind, EStateM.run_modify]
    rw [ih _ fun e' he => small e' (List.mem_cons_of_mem e he)]
    simp

theorem length_le_wordCount {call : HintCall} {e : LinearExpr} (h : e ∈ call.inputs) :
    e.length ≤ call.wordCount := by
  have sum : ∀ es : List LinearExpr, e ∈ es →
      e.length ≤ es.foldr (fun e n => 1 + 2 * e.length + n) 0 := by
    intro es
    induction es with
    | nil => simp
    | cons e' es ih =>
      rintro (_ | ⟨_, mem⟩)
      · simp only [List.foldr_cons]
        omega
      · have := ih mem
        simp only [List.foldr_cons]
        omega
  have := sum call.inputs h
  simp only [wordCount]
  omega

theorem inputCount_le_wordCount (call : HintCall) : call.inputs.length ≤ call.wordCount := by
  have sum : ∀ es : List LinearExpr,
      es.length ≤ es.foldr (fun e n => 1 + 2 * e.length + n) 0 := by
    intro es
    induction es with
    | nil => simp
    | cons e' es ih =>
      simp only [List.foldr_cons, List.length_cons]
      omega
  have := sum call.inputs
  simp only [wordCount]
  omega

theorem write_ok {call : HintCall} {buffer buffer' : CallData} {u : Unit} :
    call.write.run buffer = .ok u buffer' ↔
      call.wordCount < wordRange ∧ buffer' = buffer ++ call.words := by
  simp only [write, bind_ok, appendLength_ok, append_ok, writeInputs_ok]
  constructor
  · rintro ⟨_, _, ⟨small, rfl⟩, _, _, rfl, _, _, ⟨-, rfl⟩, _, _, ⟨-, rfl⟩, rfl⟩
    exact ⟨small, by simp [words]⟩
  · rintro ⟨small, rfl⟩
    refine ⟨(), _, ⟨small, rfl⟩, (), _, rfl, (), _, ⟨?_, rfl⟩, (), _, ⟨fun e he => ?_, rfl⟩, ?_⟩
    · exact Nat.lt_of_le_of_lt call.inputCount_le_wordCount small
    · exact Nat.lt_of_le_of_lt (length_le_wordCount he) small
    · simp [words]

/-- The words of a call are read back as the call. -/
theorem read_words {call start : HintCall} (small : call.wordCount < wordRange) :
    (HintCall.read call.words).run start = .ok () call := by
  have total : (UInt32.ofNat call.wordCount).toNat = call.words.length := by
    rw [length_words, toNat_word small]
  have count := toNat_word (Nat.lt_of_le_of_lt call.inputCount_le_wordCount small)
  have split : call.words = UInt32.ofNat call.wordCount :: call.hint ::
      UInt32.ofNat call.inputs.length :: (call.inputs.flatMap inputWords ++ call.outputs) := by
    simp [words]
  rw [split] at total ⊢
  simp only [HintCall.read, total, count, ne_eq, not_true_eq_false, if_false, EStateM.run_bind,
    EStateM.run_set, EStateM.run_modify]
  rw [readInputs_words _ _ fun e he => Nat.lt_of_le_of_lt (length_le_wordCount he) small]
  simp [empty]

end HintCall

namespace Blueprint

theorem compressHint_keeps (b : Blueprint) (call : HintCall) : Keeps (b.compressHint call) := by
  have inputs : ∀ es : List LinearExpr, Keeps (es.forM HintCall.writeInput) := by
    intro es
    induction es with
    | nil => exact .pure _
    | cons e es ih =>
      exact ((Keeps.appendLength _ _).bind fun _ => .append _).bind fun _ => ih
  unfold compressHint
  split
  · exact (Keeps.appendLength _ _).bind fun _ => (Keeps.append _).bind fun _ =>
      (Keeps.appendLength _ _).bind fun _ => (inputs _).bind fun _ => .append _
  · exact .throw _
  · exact .throw _

theorem compressHint_ok {b : Blueprint} {call : HintCall} {buffer buffer' : CallData} {u : Unit} :
    (b.compressHint call).run buffer = .ok u buffer' ↔
      b.kind = .hint ∧ call.wordCount < wordRange ∧ buffer' = buffer ++ call.words := by
  unfold compressHint
  cases kind : b.kind with
  | r1c | gate =>
    constructor
    · intro h
      cases h
    · rintro ⟨⟨⟩, -⟩
  | hint => simp only [HintCall.write_ok, true_and]

theorem run_mapFault {ε δ σ : Type} (f : ε → δ) (x : EStateM ε σ α) (s : σ) :
    (mapFault f x).run s =
      match x.run s with
      | .ok a s' => .ok a s'
      | .error e s' => .error (f e) s' := by
  simp only [mapFault, EStateM.run]
  cases x s <;> rfl

theorem decompressHint_ok {b : Blueprint} {words : CallData} {old call : HintCall} :
    (b.decompressHint words).run old = .ok () call ↔
      b.kind = .hint ∧ (HintCall.read words).run old = .ok () call := by
  unfold decompressHint
  cases kind : b.kind with
  | r1c | gate =>
    constructor
    · intro h
      cases h
    · rintro ⟨⟨⟩, -⟩
  | hint =>
    rw [run_mapFault]
    cases (HintCall.read words).run old <;> simp

theorem hintOf_words {b : Blueprint} {call : HintCall} (kind : b.kind = .hint)
    (small : call.wordCount < wordRange) : b.hintOf call.words = .ok call :=
  contentAfter_ok.2 (decompressHint_ok.2 ⟨kind, HintCall.read_words small⟩)

/-! ## Ranges -/

/-- The length that a range claims, by its blueprint and its first word. -/
def claimedLength? (b : Blueprint) (words : CallData) : Option Nat :=
  b.fixedLength?.or (words.head?.map UInt32.toNat)

theorem callDataLength_eq_ok {b : Blueprint} {words : CallData} {n : Nat} :
    b.callDataLength words = .ok n ↔
      b.claimedLength? words = some n ∧ n ≠ 0 ∧ n ≤ words.length := by
  have check (k : Nat) :
      (do
        if k = 0 ∨ words.length < k then throw (.malformed b .rangeTooLong)
        return k : Except Error Nat) = .ok n ↔ k = n ∧ n ≠ 0 ∧ n ≤ words.length := by
    dsimp only
    split
    · next bad =>
      constructor
      · rintro ⟨⟩
      · rintro ⟨rfl, positive, fits⟩
        omega
    · next good =>
      constructor
      · intro h
        obtain rfl := Except.ok.inj h
        omega
      · rintro ⟨rfl, -, -⟩
        rfl
  unfold callDataLength claimedLength?
  cases hf : b.fixedLength? with
  | some k =>
    rw [Option.some_or, Option.some.injEq]
    exact check k
  | none =>
    cases words with
    | nil =>
      constructor
      · rintro ⟨⟩
      · rintro ⟨⟨⟩, -⟩
    | cons total rest =>
      rw [Option.none_or, List.head?_cons, Option.map_some, Option.some.injEq]
      exact check total.toNat

/-- The length of an instruction does not depend on the words after it. -/
theorem callDataLength_append {b : Blueprint} {words : CallData} {n : Nat} (more : CallData)
    (h : b.callDataLength words = .ok n) : b.callDataLength (words ++ more) = .ok n := by
  rw [callDataLength_eq_ok] at h ⊢
  obtain ⟨claimed, positive, fits⟩ := h
  refine ⟨?_, positive, by rw [List.length_append]; omega⟩
  cases words with
  | nil => simp at fits; omega
  | cons total rest => exact claimed

theorem length_le_of_callDataLength {b : Blueprint} {words : CallData} {n : Nat}
    (h : b.callDataLength words = .ok n) : n ≤ words.length :=
  (callDataLength_eq_ok.1 h).2.2

/-- A length is a word of the range, or one of the fixed lengths. -/
theorem lt_of_callDataLength {b : Blueprint} {words : CallData} {n : Nat}
    (h : b.callDataLength words = .ok n) : n < wordRange := by
  obtain ⟨claimed, -, -⟩ := callDataLength_eq_ok.1 h
  have word (total : UInt32) : total.toNat < wordRange := UInt32.toNat_lt total
  cases b with
  | genericR1C =>
    obtain ⟨total, -, rfl⟩ := Option.map_eq_some_iff.1 claimed
    exact word total
  | genericHint =>
    obtain ⟨total, -, rfl⟩ := Option.map_eq_some_iff.1 claimed
    exact word total
  | genericGate | mul | add | bool =>
    obtain rfl := Option.some.inj claimed
    decide

theorem callDataLength_r1c {b : Blueprint} {r : R1C} (kind : b.kind = .r1c)
    (small : r.wordCount < wordRange) : b.callDataLength r.words = .ok r.words.length := by
  have total := toNat_word small
  rw [callDataLength_eq_ok]
  cases b with
  | genericR1C =>
    refine ⟨?_, by simp [R1C.words], Nat.le_refl _⟩
    rw [R1C.length_words]
    exact congrArg some total
  | _ => cases kind

theorem callDataLength_gate {b : Blueprint} {g : Gate} (kind : b.kind = .gate) :
    b.callDataLength (g.words b) = .ok (g.words b).length := by
  rw [callDataLength_eq_ok]
  cases b with
  | genericR1C => cases kind
  | genericHint => cases kind
  | _ => exact ⟨rfl, by simp [Gate.words], Nat.le_refl _⟩

theorem callDataLength_hint {b : Blueprint} {call : HintCall} (kind : b.kind = .hint)
    (small : call.wordCount < wordRange) :
    b.callDataLength call.words = .ok call.words.length := by
  have total := toNat_word small
  rw [callDataLength_eq_ok]
  cases b with
  | genericHint =>
    refine ⟨?_, by simp [HintCall.words], Nat.le_refl _⟩
    rw [HintCall.length_words]
    exact congrArg some total
  | _ => cases kind

end Blueprint

end CircuitWitness
