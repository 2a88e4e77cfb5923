import GuardFinder.Word

/-!
# Keccak-256

The hash of the virtual machine: the sponge over the permutation of 25 lanes of 64 bits, with a rate
of 136 bytes, the padding byte `0x01` and 32 bytes of output.
-/

namespace GuardFinder.Keccak

/-- The lanes of a state; lane `x + 5 * y` is the one in column `x` and row `y`. -/
abbrev Lanes := Array UInt64

/-- The round constants. -/
def roundConstants : List UInt64 :=
  [0x0000000000000001, 0x0000000000008082, 0x800000000000808a, 0x8000000080008000,
   0x000000000000808b, 0x0000000080000001, 0x8000000080008081, 0x8000000000008009,
   0x000000000000008a, 0x0000000000000088, 0x0000000080008009, 0x000000008000000a,
   0x000000008000808b, 0x800000000000008b, 0x8000000000008089, 0x8000000000008003,
   0x8000000000008002, 0x8000000000000080, 0x000000000000800a, 0x800000008000000a,
   0x8000000080008081, 0x8000000000008080, 0x0000000080000001, 0x8000000080008008]

/-- How far each lane is rotated. -/
def rotations : Array UInt64 :=
  #[0, 1, 62, 28, 27, 36, 44, 6, 55, 20, 3, 10, 43, 25, 39, 41, 45, 15, 21, 8, 18, 2, 61, 56, 14]

/-- Rotation to the left; a rotation by zero leaves the lane. -/
def rotate (lane places : UInt64) : UInt64 := (lane <<< places) ||| (lane >>> (64 - places))

/-- Lane number `i`. -/
def lane (a : Lanes) (i : Nat) : UInt64 := a.getD i 0

/-- The lanes that `f` gives for the numbers below 25. -/
def lanes (f : Nat → UInt64) : Lanes := ((List.range 25).map f).toArray

/-- The parity of column `x`. -/
def parity (a : Lanes) (x : Nat) : UInt64 :=
  lane a x ^^^ lane a (x + 5) ^^^ lane a (x + 10) ^^^ lane a (x + 15) ^^^ lane a (x + 20)

/-- Adds to each lane the parities of two columns near it. -/
def theta (a : Lanes) : Lanes :=
  let c : Lanes := ((List.range 5).map (parity a)).toArray
  lanes fun i => lane a i ^^^ lane c ((i + 4) % 5) ^^^ rotate (lane c ((i + 1) % 5)) 1

/-- Rotates the lanes and moves them to their new places. -/
def rhoPi (a : Lanes) : Lanes :=
  lanes fun i =>
    let source := (i % 5 + 3 * (i / 5)) % 5 + 5 * (i % 5)
    rotate (lane a source) (lane rotations source)

/-- Combines each lane with the two after it in its row. -/
def chi (a : Lanes) : Lanes :=
  lanes fun i =>
    let row := 5 * (i / 5)
    lane a i ^^^ (~~~lane a (row + (i + 1) % 5) &&& lane a (row + (i + 2) % 5))

/-- One round of the permutation. -/
def round (a : Lanes) (constant : UInt64) : Lanes :=
  (chi (rhoPi (theta a))).modify 0 (· ^^^ constant)

/-- The permutation. -/
def permute (a : Lanes) : Lanes := roundConstants.foldl round a

/-- The rate of the sponge in bytes. -/
def rate : Nat := 136

/-- A message with its padding, a whole number of blocks long. -/
def padded (message : Bytes) : Array UInt8 :=
  let free := rate - message.length % rate
  let padding :=
    if free = 1 then [0x81] else 0x01 :: (List.replicate (free - 2) 0x00 ++ [0x80])
  (message ++ padding).toArray

/-- The lane of the eight bytes from `start`, the first being the least significant. -/
def laneAt (bytes : Array UInt8) (start : Nat) : UInt64 :=
  (List.range 8).foldr (fun i n => n * 256 + (bytes.getD (start + i) 0).toUInt64) 0

/-- The state after the block that starts at `start`. -/
def absorb (bytes : Array UInt8) (start : Nat) (a : Lanes) : Lanes :=
  permute (lanes fun i =>
    if i < rate / 8 then lane a i ^^^ laneAt bytes (start + 8 * i) else lane a i)

/-- The hash of a message. -/
def digest (message : Bytes) : Bytes :=
  let bytes := padded message
  let final := (List.range (bytes.size / rate)).foldl
    (fun a block => absorb bytes (rate * block) a) (Array.replicate 25 0)
  (List.range 32).map fun i => (lane final (i / 8) >>> (8 * (i % 8)).toUInt64).toUInt8

end GuardFinder.Keccak
