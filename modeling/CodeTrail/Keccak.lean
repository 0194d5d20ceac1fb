import CodeTrail.Octets

/-!
# The hash Keccak-256

The sponge has a state of twenty-five 64-bit lanes, lane `(x, y)` at index `x + 5 * y`. `permute`
applies twenty-four rounds of the step mappings `theta`, `rhoPi`, `chi` and `iota`, `absorb` adds a
block of seventeen lanes and permutes, and `keccak256` pads a message, absorbs it block by block
and takes the first four lanes, bytes in little-endian order. The padding is the one of the first
submission: a byte `0x01`, zeros, and the top bit of the last byte of the block.
-/

set_option autoImplicit false
set_option relaxedAutoImplicit false

namespace CodeTrail.Keccak

/-- The state of the sponge. -/
abbrev State := Vector UInt64 25

/-- The lane at column `x` and row `y`, both taken modulo five. -/
def State.lane (state : State) (x y : Nat) : UInt64 :=
  state.get (Fin.ofNat 25 (x % 5 + 5 * (y % 5)))

/-- A state given lane by lane. -/
def State.ofLanes (lane : Nat → Nat → UInt64) : State :=
  Vector.ofFn fun index ↦ lane (index.val % 5) (index.val / 5)

/-- A word turned left by fewer than sixty-four bits. -/
def turnLeft (word : UInt64) (amount : UInt64) : UInt64 :=
  if amount = 0 then word else (word <<< amount) ||| (word >>> (64 - amount))

/-- How far the lane at each index is turned. -/
def turns : Vector UInt64 25 :=
  #v[0, 1, 62, 28, 27, 36, 44, 6, 55, 20, 3, 10, 43, 25, 39, 41, 45, 15, 21, 8, 18, 2, 61, 56, 14]

/-- The constants of the twenty-four rounds. -/
def roundConstants : List UInt64 :=
  [0x0000000000000001, 0x0000000000008082, 0x800000000000808a, 0x8000000080008000,
    0x000000000000808b, 0x0000000080000001, 0x8000000080008081, 0x8000000000008009,
    0x000000000000008a, 0x0000000000000088, 0x0000000080008009, 0x000000008000000a,
    0x000000008000808b, 0x800000000000008b, 0x8000000000008089, 0x8000000000008003,
    0x8000000000008002, 0x8000000000000080, 0x000000000000800a, 0x800000008000000a,
    0x8000000080008081, 0x8000000000008080, 0x0000000080000001, 0x8000000080008008]

/-- Adds to each lane the parities of two neighbouring columns. -/
def theta (state : State) : State :=
  let parity : Vector UInt64 5 := Vector.ofFn fun x ↦
    state.lane x 0 ^^^ state.lane x 1 ^^^ state.lane x 2 ^^^ state.lane x 3 ^^^ state.lane x 4
  let change : Vector UInt64 5 := Vector.ofFn fun x ↦
    parity.get (Fin.ofNat 5 (x.val + 4)) ^^^ turnLeft (parity.get (Fin.ofNat 5 (x.val + 1))) 1
  State.ofLanes fun x y ↦ state.lane x y ^^^ change.get (Fin.ofNat 5 x)

/-- Turns each lane and moves the lane at `(x, y)` to `(y, 2 * x + 3 * y)`. -/
def rhoPi (state : State) : State :=
  State.ofLanes fun x y ↦
    turnLeft (state.lane (x + 3 * y) x) (State.lane turns (x + 3 * y) x)

/-- Mixes each lane with the next two of its row. -/
def chi (state : State) : State :=
  State.ofLanes fun x y ↦
    state.lane x y ^^^ (~~~ state.lane (x + 1) y &&& state.lane (x + 2) y)

/-- Adds a round constant to the first lane. -/
def iota (constant : UInt64) (state : State) : State :=
  State.ofLanes fun x y ↦
    if x = 0 ∧ y = 0 then state.lane x y ^^^ constant else state.lane x y

/-- The permutation of the sponge. -/
def permute (state : State) : State :=
  roundConstants.foldl (fun state constant ↦ iota constant (chi (rhoPi (theta state)))) state

/-- The number of bytes in a block. -/
def rate : Nat := 136

/-- The lanes that bytes denote, eight bytes to a lane and the lowest first. -/
def lanesOf : List UInt8 → List UInt64
  | a :: b :: c :: d :: e :: f :: g :: h :: rest =>
    [h, g, f, e, d, c, b, a].foldl (fun lane byte ↦ (lane <<< 8) ||| byte.toUInt64) 0 ::
      lanesOf rest
  | _ => []

/-- The bytes of a lane, the lowest first. -/
def bytesOf (lane : UInt64) : List UInt8 :=
  [lane.toUInt8, (lane >>> 8).toUInt8, (lane >>> 16).toUInt8, (lane >>> 24).toUInt8,
    (lane >>> 32).toUInt8, (lane >>> 40).toUInt8, (lane >>> 48).toUInt8, (lane >>> 56).toUInt8]

/-- Adds a block to the state and permutes it. -/
def absorb (state : State) (block : List UInt8) : State :=
  let lanes := (lanesOf block).toArray
  permute (State.ofLanes fun x y ↦ state.lane x y ^^^ lanes.getD (x + 5 * y) 0)

/-- A message filled up to whole blocks. -/
def padded (message : List UInt8) : List UInt8 :=
  let missing := rate - message.length % rate
  if missing = 1 then message ++ [0x81]
  else message ++ 0x01 :: (List.replicate (missing - 2) 0x00 ++ [0x80])

/-- The first blocks of a message. -/
def blocks : Nat → List UInt8 → List (List UInt8)
  | 0, _ => []
  | count + 1, message => message.take rate :: blocks count (message.drop rate)

/-- The Keccak-256 hash of a message. -/
def keccak256 (message : List UInt8) : Digest :=
  let whole := padded message
  let state := (blocks (whole.length / rate) whole).foldl absorb (Vector.replicate 25 0)
  { bytes := [0, 1, 2, 3].flatMap fun x ↦ bytesOf (state.lane x 0)
    length_bytes := rfl }

end CodeTrail.Keccak
