/-!
# Keccak-256

The hash whose first four bytes select a function of a contract: the sponge over the permutation
Keccak-f[1600] with blocks of 136 bytes, where a message ends with the padding `0x01 0x00 … 0x80`.

A state is five by five lanes of 64 bits; lane `x + 5 * y` stands in column `x` and row `y`.
-/

namespace ContractBindings.Keccak

/-- The lanes of a state, row by row. -/
abbrev State := Vector UInt64 25

def State.zero : State := Vector.replicate 25 0

/-- The lane in a column and a row, both taken modulo five. -/
def lane (s : State) (x y : Nat) : UInt64 := (s.toArray[x % 5 + 5 * (y % 5)]?).getD 0

/-- The state with the given lane in each column and row. -/
def build (f : Nat → Nat → UInt64) : State := Vector.ofFn fun i => f (i.val % 5) (i.val / 5)

/-- Rotates a lane to the left. -/
def rotate (w : UInt64) (count : Nat) : UInt64 :=
  if count = 0 then w
  else (w <<< UInt64.ofNat count) ||| (w >>> UInt64.ofNat (64 - count))

/-- The distances by which lanes are rotated, row by row. -/
def rotations : List Nat :=
  [0, 1, 62, 28, 27, 36, 44, 6, 55, 20, 3, 10, 43, 25, 39, 41, 45, 15, 21, 8, 18, 2, 61, 56, 14]

/-- The words that break the symmetry of the rounds. -/
def roundConstants : List UInt64 :=
  [0x0000000000000001, 0x0000000000008082, 0x800000000000808A, 0x8000000080008000,
   0x000000000000808B, 0x0000000080000001, 0x8000000080008081, 0x8000000000008009,
   0x000000000000008A, 0x0000000000000088, 0x0000000080008009, 0x000000008000000A,
   0x000000008000808B, 0x800000000000008B, 0x8000000000008089, 0x8000000000008003,
   0x8000000000008002, 0x8000000000000080, 0x000000000000800A, 0x800000008000000A,
   0x8000000080008081, 0x8000000000008080, 0x0000000080000001, 0x8000000080008008]

/-- Mixes the parity of two neighbouring columns into every lane. -/
def theta (s : State) : State :=
  let parity := Vector.ofFn fun (x : Fin 5) =>
    lane s x.val 0 ^^^ lane s x.val 1 ^^^ lane s x.val 2 ^^^ lane s x.val 3 ^^^ lane s x.val 4
  let column (x : Nat) : UInt64 := (parity.toArray[x % 5]?).getD 0
  build fun x y => lane s x y ^^^ column (x + 4) ^^^ rotate (column (x + 1)) 1

/-- Rotates every lane and moves it to its new place. -/
def rhoPi (s : State) : State :=
  build fun x y =>
    let fromX := (x + 3 * y) % 5
    rotate (lane s fromX x) (rotations.getD (fromX + 5 * x) 0)

/-- Combines every lane with the two to its right. -/
def chi (s : State) : State :=
  build fun x y => lane s x y ^^^ (~~~ lane s (x + 1) y &&& lane s (x + 2) y)

/-- Adds the constant of a round to the first lane. -/
def iota (constant : UInt64) (s : State) : State :=
  build fun x y => if x = 0 ∧ y = 0 then lane s x y ^^^ constant else lane s x y

/-- The permutation, in 24 rounds. -/
def permute (s : State) : State :=
  roundConstants.foldl (fun s constant => iota constant (chi (rhoPi (theta s)))) s

/-- The number of bytes of a block. -/
def blockSize : Nat := 136

/-- A message with its padding, whose length is a multiple of the block size. -/
def pad (message : List UInt8) : List UInt8 :=
  let missing := blockSize - message.length % blockSize
  if missing = 1 then message ++ [0x81]
  else message ++ [0x01] ++ List.replicate (missing - 2) 0 ++ [0x80]

/-- The lane with these bytes, the least significant first. -/
def laneOfBytes (bytes : List UInt8) : UInt64 :=
  bytes.foldr (fun b w => (w <<< 8) ||| b.toUInt64) 0

/-- The bytes of a lane, the least significant first. -/
def bytesOfLane (w : UInt64) : List UInt8 :=
  (List.range 8).map fun i => (w >>> UInt64.ofNat (8 * i)).toUInt8

/-- Adds a block to the front of a state. -/
def absorb (s : State) (block : List UInt8) : State :=
  build fun x y =>
    let place := 8 * (x + 5 * y)
    lane s x y ^^^ laneOfBytes ((block.drop place).take 8)

/-- The state after the given number of blocks of a padded message. -/
def absorbBlocks (s : State) (padded : List UInt8) : Nat → State
  | 0 => s
  | blocks + 1 =>
    absorbBlocks (permute (absorb s (padded.take blockSize))) (padded.drop blockSize) blocks

/-- The 32 bytes of the hash of a message. -/
def hash (message : List UInt8) : List UInt8 :=
  let padded := pad message
  let s := absorbBlocks State.zero padded (padded.length / blockSize)
  ((List.range 4).map fun i => bytesOfLane (lane s i 0)).flatten

end ContractBindings.Keccak
