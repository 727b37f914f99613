import CircuitWitness.Circuit.Codec
import CircuitWitness.Proofs.Codec.RoundTrip

/-!
# The parts of a written circuit

Each part is read back as it was written, if its lengths fit into a word. The elements of the field
are canonical, and locations name functions of their table.

Results:
* `carries_elems`, `carries_header`: elements and the modulus.
* `LogEntry.carries`, `SymbolTable.carries`: records with texts.
-/

namespace CircuitWitness

/-! ## Field elements -/

namespace PrimeField

variable (F : PrimeField)

theorem modulus_lt : F.modulus < Nat.pow 256 F.byteLen := by
  have bits : F.modulus < 2 ^ (F.modulus.log2 + 1) := Nat.lt_log2_self
  have bytes : Nat.pow 256 F.byteLen = 2 ^ (8 * F.byteLen) := by
    rw [Nat.pow_mul]
    rfl
  rw [bytes]
  exact Nat.lt_of_lt_of_le bits (Nat.pow_le_pow_right (by decide) (by unfold byteLen; omega))

theorem byteLen_pos : 0 < F.byteLen := by
  unfold byteLen
  omega

variable {F}

theorem carries_elem (x : F.Elem) : F.elemCodec.Carries x := by
  have small : x.val % Nat.pow 256 F.byteLen = x.val :=
    Nat.mod_eq_of_lt (Nat.lt_trans x.val_lt F.modulus_lt)
  have canonical : Elem.ofCanonical? x.val = some x := dif_pos x.val_lt
  refine ⟨.one _, fun rest => ?_⟩
  simp only [elemCodec, Piece.join_one, EStateM.run_bind, Decoder.run_take_littleEndian,
    ofLittleEndian_littleEndian, small, canonical]
  rfl

theorem length_join_elems (l : List F.Elem) :
    (Piece.join (l.flatMap F.elemCodec.pieces)).length = l.length * F.byteLen := by
  induction l with
  | nil => simp [Piece.join]
  | cons x l ih =>
    rw [List.flatMap_cons, Piece.join_append (carries_elem x).whole, List.length_append, ih,
      List.length_cons, Nat.succ_mul, Nat.add_comm]
    simp [elemCodec, Piece.join_one]

theorem carries_elems {l : List F.Elem} (small : l.length < wordRange) :
    F.elemsCodec.Carries l := by
  have length := Codec.carries_size small
  refine ⟨(Codec.carries_list small fun x _ => carries_elem x).whole, fun rest => ?_⟩
  simp only [elemsCodec, Codec.list, length.bind, EStateM.run_bind]
  -- The bytes that are left hold at least as many elements.
  have enough : ¬ (Piece.join (l.flatMap F.elemCodec.pieces) ++ rest).length / F.byteLen
      < l.length := by
    rw [Nat.not_lt, Nat.le_div_iff_mul_le F.byteLen_pos, List.length_append, length_join_elems]
    omega
  have left : Decoder.remaining.run (Piece.join (l.flatMap F.elemCodec.pieces) ++ rest)
      = .ok (Piece.join (l.flatMap F.elemCodec.pieces) ++ rest).length
        (Piece.join (l.flatMap F.elemCodec.pieces) ++ rest) := rfl
  simp only [left, if_neg enough]
  exact Codec.run_replicate (fun x _ => carries_elem x) rest

theorem carries_header (small : F.byteLen < wordRange) : F.headerCodec.Carries () := by
  have digits : (Codec.list Codec.u8).Carries (littleEndian F.byteLen F.modulus) :=
    Codec.carries_list (by rwa [length_littleEndian]) fun x _ => Codec.carries_u8 x
  have same : ofLittleEndian (littleEndian F.byteLen F.modulus) = F.modulus := by
    rw [ofLittleEndian_littleEndian, Nat.mod_eq_of_lt F.modulus_lt]
  refine ⟨digits.whole, fun rest => ?_⟩
  simp only [headerCodec, digits.bind_last, Decoder.run_require _ (decide_eq_true same)]

end PrimeField

/-! ## Tags and numbers -/

theorem CircuitKind.carries (kind : CircuitKind) : CircuitKind.codec.Carries kind :=
  Codec.carries_tagged (by cases kind <;> rfl)

theorem Blueprint.carries (b : Blueprint) : Blueprint.codec.Carries b :=
  Codec.carries_tagged (by cases b <;> rfl)

theorem Instruction.carries (i : Instruction) : Instruction.codec.Carries i :=
  Codec.carries_imap (Codec.carries_pair (Codec.carries_u32 _)
    (Codec.carries_pair (Codec.carries_u32 _) (Codec.carries_u64 _))) rfl

theorem Term.carries (t : Term) : Term.codec.Carries t :=
  Codec.carries_imap (Codec.carries_pair (Codec.carries_u32 _) (Codec.carries_u32 _)) rfl

/-! ## Calls of hints -/

/-- The lengths in a call of a hint fit into words. -/
structure HintCall.Fits (h : HintCall) : Prop where
  inputs : h.inputs.length < wordRange ∧ ∀ x ∈ h.inputs, x.length < wordRange
  outputs : h.outputs.length < wordRange

theorem HintCall.carries {h : HintCall} (fits : h.Fits) : HintCall.codec.Carries h :=
  Codec.carries_imap (Codec.carries_pair (Codec.carries_u32 _) (Codec.carries_pair
    (Codec.carries_list fits.inputs.1 fun x hx =>
      Codec.carries_list (fits.inputs.2 x hx) fun t _ => t.carries)
    (Codec.carries_list fits.outputs fun x _ => Codec.carries_u32 x))) rfl

/-! ## Records with texts -/

/-- The bytes of a text can be counted by a word. -/
def TextFits (s : String) : Prop := (Utf8.encode s).length < wordRange

instance : DecidablePred TextFits := fun _ => inferInstanceAs (Decidable (_ < _))

/-- The lengths in a log entry fit into words. -/
structure LogEntry.Fits (e : LogEntry) : Prop where
  caller : TextFits e.caller
  format : TextFits e.format
  exprs : e.exprs.length < wordRange ∧ ∀ x ∈ e.exprs, x.length < wordRange
  stack : e.stack.length < wordRange

instance : DecidablePred LogEntry.Fits := fun e =>
  decidable_of_iff (TextFits e.caller ∧ TextFits e.format ∧
      (e.exprs.length < wordRange ∧ ∀ x ∈ e.exprs, x.length < wordRange) ∧
      e.stack.length < wordRange)
    ⟨fun ⟨caller, format, exprs, stack⟩ => ⟨caller, format, exprs, stack⟩,
      fun h => ⟨h.caller, h.format, h.exprs, h.stack⟩⟩

theorem LogEntry.carries {e : LogEntry} (h : e.Fits) : LogEntry.codec.Carries e :=
  Codec.carries_imap (Codec.carries_pair (Codec.carries_string h.caller)
    (Codec.carries_pair (Codec.carries_string h.format)
      (Codec.carries_pair
        (Codec.carries_list h.exprs.1 fun x hx =>
          Codec.carries_list (h.exprs.2 x hx) fun t _ => t.carries)
        (Codec.carries_list h.stack fun x _ => Codec.carries_u32 x)))) rfl

/-- The lengths in a symbol table fit into words. -/
structure SymbolTable.Fits (t : SymbolTable) : Prop where
  functions : t.functions.length < wordRange
  names : ∀ f ∈ t.functions, TextFits f.name ∧ TextFits f.file
  locations : t.locations.length < wordRange

instance : DecidablePred SymbolTable.Fits := fun t =>
  decidable_of_iff (t.functions.length < wordRange ∧
      (∀ f ∈ t.functions, TextFits f.name ∧ TextFits f.file) ∧ t.locations.length < wordRange)
    ⟨fun ⟨functions, names, locations⟩ => ⟨functions, names, locations⟩,
      fun h => ⟨h.functions, h.names, h.locations⟩⟩

theorem SourceFunction.carries {f : SourceFunction} (name : TextFits f.name)
    (file : TextFits f.file) : SourceFunction.codec.Carries f :=
  Codec.carries_imap (Codec.carries_pair (Codec.carries_string name) (Codec.carries_string file))
    rfl

theorem Location.carries (l : Location) : Location.codec.Carries l :=
  Codec.carries_imap (Codec.carries_pair (Codec.carries_u32 _) (Codec.carries_u32 _)) rfl

theorem SymbolTable.carries {t : SymbolTable} (h : t.Fits) (known : t.wellFormed) :
    SymbolTable.codec.Carries t :=
  Codec.carries_filter (Codec.carries_imap (Codec.carries_pair
    (Codec.carries_list h.functions fun f hf =>
      SourceFunction.carries (h.names f hf).1 (h.names f hf).2)
    (Codec.carries_list h.locations fun l _ => l.carries)) rfl) known

end CircuitWitness
