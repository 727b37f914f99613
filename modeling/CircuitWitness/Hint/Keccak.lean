/-!
# Keccak-256

The sponge over the permutation Keccak-f[1600] with 136-byte blocks and the padding that starts
with the byte `01`. A state is the list of its 25 lanes; lane `x + 5 y` stands in column `x` and
row `y`.

Results:
* `length_permute`: the permutation keeps the number of lanes.
-/

namespace CircuitWitness.Keccak

/-! ## The permutation -/

/-- A lane turned left by `k` bits. Shifts take their amount modulo 64, so a turn by zero keeps
    the lane. -/
def rotate (w : UInt64) (k : UInt64) : UInt64 := w <<< k ||| w >>> (64 - k)

/-- The constants of the 24 rounds. -/
def roundConstants : List UInt64 :=
  [0x0000000000000001, 0x0000000000008082, 0x800000000000808A, 0x8000000080008000,
   0x000000000000808B, 0x0000000080000001, 0x8000000080008081, 0x8000000000008009,
   0x000000000000008A, 0x0000000000000088, 0x0000000080008009, 0x000000008000000A,
   0x000000008000808B, 0x800000000000008B, 0x8000000000008089, 0x8000000000008003,
   0x8000000000008002, 0x8000000000000080, 0x000000000000800A, 0x800000008000000A,
   0x8000000080008081, 0x8000000000008080, 0x0000000080000001, 0x8000000080008008]

/-- How far each lane is turned. -/
def offsets : List UInt64 :=
  [0, 1, 62, 28, 27, 36, 44, 6, 55, 20, 3, 10, 43, 25, 39, 41, 45, 15, 21, 8, 18, 2, 61, 56, 14]

/-- The lane in column `x` and row `y`, both taken modulo five. -/
def lane (state : List UInt64) (x y : Nat) : UInt64 := state.getD (x % 5 + 5 * (y % 5)) 0

/-- The state with the given lane in each column and row. -/
def build (f : Nat → Nat → UInt64) : List UInt64 :=
  (List.range 25).map fun i => f (i % 5) (i / 5)

/-- Adds to each lane the parities of two neighbouring columns. -/
def mixColumns (a : List UInt64) : List UInt64 :=
  let parity := (List.range 5).map fun x =>
    lane a x 0 ^^^ lane a x 1 ^^^ lane a x 2 ^^^ lane a x 3 ^^^ lane a x 4
  build fun x y =>
    lane a x y ^^^ parity.getD ((x + 4) % 5) 0 ^^^ rotate (parity.getD ((x + 1) % 5) 0) 1

/-- Turns each lane and moves it to its new place. -/
def moveLanes (a : List UInt64) : List UInt64 :=
  build fun x y =>
    let column := (x + 3 * y) % 5
    rotate (lane a column x) (offsets.getD (column + 5 * x) 0)

/-- Combines each lane with the next two of its row, and adds the round constant to the first. -/
def mixRows (constant : UInt64) (a : List UInt64) : List UInt64 :=
  build fun x y =>
    let mixed := lane a x y ^^^ (~~~ lane a (x + 1) y &&& lane a (x + 2) y)
    if x = 0 ∧ y = 0 then mixed ^^^ constant else mixed

/-- The permutation Keccak-f[1600]. -/
def permute (state : List UInt64) : List UInt64 :=
  roundConstants.foldl (fun a constant => mixRows constant (moveLanes (mixColumns a))) state

theorem length_build (f : Nat → Nat → UInt64) : (build f).length = 25 := by simp [build]

theorem length_permute (state : List UInt64) : (permute state).length = 25 := by
  rw [permute, roundConstants]
  simp only [List.foldl_cons, List.foldl_nil]
  exact length_build _

/-! ## The sponge -/

/-- The bytes in one block. -/
def rate : Nat := 136

/-- The message with its padding, which fills the last block. -/
def pad (message : List UInt8) : List UInt8 :=
  let zeros := rate - 1 - message.length % rate
  if zeros = 0 then message ++ [0x81]
  else message ++ 0x01 :: List.replicate (zeros - 1) 0x00 ++ [0x80]

/-- The lane of eight bytes, lowest first. -/
def laneOfBytes (bytes : List UInt8) : UInt64 :=
  bytes.foldr (fun b acc => UInt64.ofNat b.toNat ||| acc <<< 8) 0

/-- Adds a block to the state and permutes. -/
def absorbBlock (state : List UInt64) (block : List UInt8) : List UInt64 :=
  permute (build fun x y =>
    let i := x + 5 * y
    lane state x y ^^^ laneOfBytes ((block.drop (8 * i)).take 8))

/-- Absorbs whole blocks, at most `n` of them. -/
def absorb : Nat → List UInt8 → List UInt64 → List UInt64
  | 0, _, state => state
  | n + 1, bytes, state =>
    if bytes.isEmpty then state
    else absorb n (bytes.drop rate) (absorbBlock state (bytes.take rate))

/-- The 32 bytes of the digest. -/
def digest (message : List UInt8) : List UInt8 :=
  let padded := pad message
  let state := absorb (padded.length / rate) padded (List.replicate 25 0)
  (List.range 32).map fun i => UInt8.ofNat ((state.getD (i / 8) 0).toNat >>> (8 * (i % 8)))

end CircuitWitness.Keccak
