import CircuitWitness.Proofs.Codec.Canonical

/-!
# Bytes that end too early

A reader is steady if more bytes at the end change its result only where it lacked bytes: what it
reads, and every other failure, it finds in the bytes before them, and the additional bytes are left
over. So where a steady reader would take all bytes, and some of them are cut off at the end, it
lacks bytes, and fails for no other reason first.

Every form is steady. The elements of a field compare their number with the bytes that are left, and
refuse as lacking bytes, which more bytes may cure.

Results:
* `Steady.bind`: one steady reader after another is steady.
* `steady_list`, `steady_map`, `steady_string`: the composite forms.
* `Steady.run_cut`: a steady reader that would take all bytes lacks bytes if some are cut off.
* `Carries.decode_cut`: a form that is steady refuses each value that is cut off.
-/

namespace CircuitWitness

variable {α β κ : Type}

/-! ## More bytes at the end -/

/-- A reader whose result stays if more bytes follow, unless it lacks bytes. -/
structure Decoder.Steady (d : Decoder α) : Prop where
  ok : ∀ {bytes rest : Bytes} {x : α}, d.run bytes = .ok x rest →
    ∀ more, d.run (bytes ++ more) = .ok x (rest ++ more)
  error : ∀ {bytes rest : Bytes} {e : DecodeError}, d.run bytes = .error e rest →
    e ≠ .endOfInput → ∀ more, d.run (bytes ++ more) = .error e (rest ++ more)

namespace Decoder

theorem Steady.pure (x : α) : Steady (Pure.pure x) := by
  constructor
  · intro bytes rest y ran more
    obtain ⟨rfl, rfl⟩ := pure_ok.1 ran
    rfl
  · intro bytes rest e ran
    cases ran

theorem Steady.throw (e : DecodeError) : Steady (throw e : Decoder α) := by
  constructor
  · intro bytes rest x ran
    cases ran
  · intro bytes rest e' ran _ more
    obtain ⟨rfl, rfl⟩ := EStateM.Result.error.inj ran
    rfl

theorem Steady.bind {d : Decoder α} {next : α → Decoder β} (first : d.Steady)
    (second : ∀ x, (next x).Steady) : (d >>= next).Steady := by
  constructor
  · intro bytes rest y ran more
    obtain ⟨x, after, read, tail⟩ := bind_ok.1 ran
    exact bind_ok.2 ⟨x, after ++ more, first.ok read more, (second x).ok tail more⟩
  · intro bytes rest e ran supplied more
    obtain failed | ⟨x, after, read, tail⟩ := bind_error.1 ran
    · exact bind_error.2 (.inl (first.error failed supplied more))
    · exact bind_error.2
        (.inr ⟨x, after ++ more, first.ok read more, (second x).error tail supplied more⟩)

theorem Steady.map {d : Decoder α} (h : d.Steady) (f : α → β) : (f <$> d).Steady := by
  rw [← bind_pure_comp]
  exact h.bind fun x => .pure (f x)

theorem steady_take (n : ℕ) : (take n).Steady := by
  constructor
  · intro bytes rest bs ran more
    obtain ⟨rfl, rfl⟩ := take_ok ran
    rw [List.append_assoc]
    exact run_take bs (rest ++ more)
  · intro bytes rest e ran supplied
    simp only [EStateM.run, take] at ran
    split at ran
    · cases ran
    · obtain ⟨lacking, -⟩ := EStateM.Result.error.inj ran
      exact absurd lacking.symm supplied

theorem steady_require (rule : FormatRule) (holds : Bool) : (require rule holds).Steady := by
  cases holds with
  | true => exact .pure ()
  | false => exact .throw _

theorem Steady.replicate {d : Decoder α} (h : d.Steady) (n : ℕ) : (replicate n d).Steady := by
  induction n with
  | zero => exact .pure []
  | succ n ih => exact h.bind fun x => ih.bind fun xs => .pure (x :: xs)

/-- A check that bytes are lacking, which more bytes may only cure, leaves a reader steady. -/
theorem Steady.guarded {d : Decoder α} (h : d.Steady) {lacks : ℕ → Prop} [DecidablePred lacks]
    (cured : ∀ {m n : ℕ}, m ≤ n → lacks n → lacks m) :
    (remaining >>= fun left =>
      if lacks left then MonadExcept.throw .endOfInput >>= fun (_ : PUnit) => d else d).Steady := by
  have passes {bytes : Bytes} (enough : ¬ lacks bytes.length) (more : Bytes) :
      ¬ lacks (bytes ++ more).length := fun lacking =>
    enough (cured (by rw [List.length_append]; omega) lacking)
  constructor
  · intro bytes rest x ran more
    obtain ⟨left, after, remaining, tail⟩ := bind_ok.1 ran
    obtain ⟨rfl, rfl⟩ := EStateM.Result.ok.inj remaining
    split at tail
    · cases tail
    · next enough =>
      refine bind_ok.2 ⟨_, _, rfl, ?_⟩
      rw [if_neg (passes enough more)]
      exact h.ok tail more
  · intro bytes rest e ran supplied more
    obtain failed | ⟨left, after, remaining, tail⟩ := bind_error.1 ran
    · cases failed
    · obtain ⟨rfl, rfl⟩ := EStateM.Result.ok.inj remaining
      split at tail
      · obtain ⟨lacking, -⟩ := EStateM.Result.error.inj tail
        exact absurd lacking.symm supplied
      · next enough =>
        refine bind_error.2 (.inr ⟨_, _, rfl, ?_⟩)
        rw [if_neg (passes enough more)]
        exact h.error tail supplied more

/-- What a steady reader takes to the last byte lacks bytes if some are cut off. -/
theorem Steady.run_cut {d : Decoder α} (h : d.Steady) {bytes cut : Bytes} {x : α}
    (ran : d.run bytes = .ok x []) (front : cut <+: bytes) (short : cut ≠ bytes) :
    ∃ left, d.run cut = .error .endOfInput left := by
  obtain ⟨missing, rfl⟩ := front
  cases stopped : d.run cut with
  | ok y rest =>
    have whole := h.ok stopped missing
    rw [ran] at whole
    obtain ⟨-, nothingLeft⟩ := EStateM.Result.ok.inj whole
    obtain ⟨-, rfl⟩ := List.append_eq_nil_iff.1 nothingLeft.symm
    exact absurd (List.append_nil cut).symm short
  | error e left =>
    by_cases lacking : e = .endOfInput
    · exact ⟨left, by rw [lacking]⟩
    · have whole := h.error stopped lacking missing
      rw [ran] at whole
      cases whole

end Decoder

namespace Codec

/-! ## Numbers and tags -/

theorem steady_number (k : ℕ) (toNat : α → ℕ) (ofNat : ℕ → α) :
    (number k toNat ofNat).read.Steady :=
  (Decoder.steady_take k).bind fun _ => .pure _

theorem steady_size : size.read.Steady := (Decoder.steady_take 4).bind fun _ => .pure _

theorem steady_tagged (type : TaggedType) (tag : α → UInt8) (all : List α) :
    (tagged type tag all).read.Steady := by
  refine (steady_number ..).bind fun index => ?_
  split
  · exact .pure _
  · exact .throw _

/-! ## Composite forms -/

theorem steady_imap {c : Codec α} (h : c.read.Steady) (wrap : α → β) (unwrap : β → α) :
    (c.imap wrap unwrap).read.Steady := h.map wrap

theorem steady_filter {c : Codec α} (h : c.read.Steady) (rule : FormatRule) (holds : α → Bool) :
    (c.filter rule holds).read.Steady :=
  h.bind fun x => (Decoder.steady_require rule _).bind fun _ => .pure x

theorem steady_pair {c : Codec α} {d : Codec β} (hc : c.read.Steady) (hd : d.read.Steady) :
    (pair c d).read.Steady :=
  hc.bind fun x => hd.bind fun y => .pure (x, y)

theorem steady_string : string.read.Steady := by
  refine steady_size.bind fun n => (Decoder.steady_take n).bind fun bs => ?_
  split
  · exact .pure _
  · exact .throw _

theorem steady_list {c : Codec α} (h : c.read.Steady) : (list c).read.Steady :=
  steady_size.bind fun n => h.replicate n

section

variable [LE κ] [LT κ] [DecidableLT κ] [DecidableEq κ] [Std.IsLinearOrder κ]
  [Std.LawfulOrderLT κ]

theorem steady_readEntries {entry : Decoder (κ × α)} (h : entry.Steady) (n : ℕ)
    (m : OrderedMap κ α) : (readEntries entry n m).Steady := by
  induction n generalizing m with
  | zero => exact .pure m
  | succ n ih => exact h.bind fun e => (Decoder.steady_require _ _).bind fun _ => ih _

theorem steady_map {key : Codec κ} {value : Codec α} (hk : key.read.Steady)
    (hv : value.read.Steady) : (map key value).read.Steady :=
  steady_size.bind fun n => steady_readEntries (steady_pair hk hv) n .empty

end

/-- A value that is carried by a steady form is not read from a part of its bytes. -/
theorem Carries.decode_cut {c : Codec α} {x : α} (h : c.Carries x) (steady : c.read.Steady)
    {cut : Bytes} (front : cut <+: Piece.join (c.pieces x))
    (short : cut ≠ Piece.join (c.pieces x)) :
    ∃ left, c.decode cut = .error .endOfInput left := by
  have whole := h.read []
  rw [List.append_nil] at whole
  exact steady.run_cut whole front short

end Codec

/-! ## Field elements -/

namespace PrimeField

variable {F : PrimeField}

theorem steady_elem : F.elemCodec.read.Steady := by
  refine (Decoder.steady_take _).bind fun bs => ?_
  split
  · exact .pure _
  · exact .throw _

theorem steady_elems : F.elemsCodec.read.Steady := by
  refine Codec.steady_size.bind fun n => (steady_elem.replicate n).guarded ?_
  intro m m' grown lacking
  exact Nat.lt_of_le_of_lt (Nat.div_le_div_right grown) lacking

theorem steady_header : F.headerCodec.read.Steady :=
  (Codec.steady_list (Codec.steady_number ..)).bind fun _ => Decoder.steady_require _ _

end PrimeField

/-! ## Records -/

theorem Term.steady : Term.codec.read.Steady :=
  Codec.steady_imap (Codec.steady_pair (Codec.steady_number ..) (Codec.steady_number ..)) ..

theorem HintCall.steady : HintCall.codec.read.Steady :=
  Codec.steady_imap (Codec.steady_pair (Codec.steady_number ..) (Codec.steady_pair
    (Codec.steady_list (Codec.steady_list Term.steady))
    (Codec.steady_list (Codec.steady_number ..)))) ..

theorem Instruction.steady : Instruction.codec.read.Steady :=
  Codec.steady_imap (Codec.steady_pair (Codec.steady_number ..)
    (Codec.steady_pair (Codec.steady_number ..) (Codec.steady_number ..))) ..

theorem LogEntry.steady : LogEntry.codec.read.Steady :=
  Codec.steady_imap (Codec.steady_pair Codec.steady_string (Codec.steady_pair Codec.steady_string
    (Codec.steady_pair (Codec.steady_list (Codec.steady_list Term.steady))
      (Codec.steady_list (Codec.steady_number ..))))) ..

theorem SourceFunction.steady : SourceFunction.codec.read.Steady :=
  Codec.steady_imap (Codec.steady_pair Codec.steady_string Codec.steady_string) ..

theorem Location.steady : Location.codec.read.Steady :=
  Codec.steady_imap (Codec.steady_pair (Codec.steady_number ..) (Codec.steady_number ..)) ..

theorem SymbolTable.steady : SymbolTable.codec.read.Steady :=
  Codec.steady_filter (Codec.steady_imap (Codec.steady_pair
    (Codec.steady_list SourceFunction.steady) (Codec.steady_list Location.steady)) ..) ..

end CircuitWitness
