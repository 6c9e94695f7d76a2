import LedgerWire.Bytes.Basic

/-!
# Keccak-256

The digest of a byte string in 32 bytes: the sponge over 25 lanes of 64 bits with a rate of 136 bytes,
with the padding from before standardization.
-/

namespace LedgerWire

namespace Keccak

/-- Twenty-five lanes; the lane at `(x, y)` has the place `x + 5 * y`. -/
abbrev State := Vector UInt64 25

def lane (s : State) (x y : Nat) : UInt64 := s.get ⟨x % 5 + 5 * (y % 5), by omega⟩

/-- The lanes as a function of their coordinates. -/
def State.ofLanes (f : Nat → Nat → UInt64) : State :=
  Vector.ofFn fun i => f (i.val % 5) (i.val / 5)

def roundConstants : List UInt64 := [
  0x0000000000000001, 0x0000000000008082, 0x800000000000808a, 0x8000000080008000,
  0x000000000000808b, 0x0000000080000001, 0x8000000080008081, 0x8000000000008009,
  0x000000000000008a, 0x0000000000000088, 0x0000000080008009, 0x000000008000000a,
  0x000000008000808b, 0x800000000000008b, 0x8000000000008089, 0x8000000000008003,
  0x8000000000008002, 0x8000000000000080, 0x000000000000800a, 0x800000008000000a,
  0x8000000080008081, 0x8000000000008080, 0x0000000080000001, 0x8000000080008008]

/-- How far each lane is rotated. -/
def offsets : Vector UInt64 25 := #v[
  0, 1, 62, 28, 27,
  36, 44, 6, 55, 20,
  3, 10, 43, 25, 39,
  41, 45, 15, 21, 8,
  18, 2, 61, 56, 14]

def rotate (x n : UInt64) : UInt64 := if n = 0 then x else (x <<< n) ||| (x >>> (64 - n))

/-- Adds to each lane the parities of two columns beside it. -/
def theta (s : State) : State :=
  let parity (x : Nat) := lane s x 0 ^^^ lane s x 1 ^^^ lane s x 2 ^^^ lane s x 3 ^^^ lane s x 4
  let columns : Vector UInt64 5 := Vector.ofFn fun i => parity i.val
  let column (x : Nat) : UInt64 := columns.get ⟨x % 5, by omega⟩
  .ofLanes fun x y => lane s x y ^^^ column (x + 4) ^^^ rotate (column (x + 1)) 1

/-- Rotates the lanes and moves each to its new place. -/
def rhoPi (s : State) : State :=
  .ofLanes fun x y =>
    let source := (x + 3 * y) % 5
    rotate (lane s source x) (lane offsets source x)

/-- Mixes each row. -/
def chi (s : State) : State :=
  .ofLanes fun x y => lane s x y ^^^ (~~~lane s (x + 1) y &&& lane s (x + 2) y)

def round (s : State) (constant : UInt64) : State :=
  let t := chi (rhoPi (theta s))
  t.set 0 (t[0] ^^^ constant)

def permute (s : State) : State := roundConstants.foldl round s

/-- The bytes that the sponge takes in at once. -/
def rate : Nat := 136

/-- The message in whole blocks: a first and a last bit mark the padding. -/
def pad (message : Bytes) : Bytes :=
  let missing := rate - message.length % rate
  if missing = 1 then message ++ [0x81]
  else message ++ 0x01 :: List.replicate (missing - 2) 0 ++ [0x80]

/-- The first `count` lanes that bytes spell. -/
def lanes : (count : Nat) → Bytes → List UInt64
  | 0, _ => []
  | count + 1, bs => UInt64.ofNat (Bytes.toNatLE (bs.take 8)) :: lanes count (bs.drop 8)

/-- Takes in `count` blocks. -/
def absorb : (count : Nat) → Bytes → State → State
  | 0, _, s => s
  | count + 1, bs, s =>
    let block := lanes 17 bs
    let mixed : State := Vector.ofFn fun i => s[i] ^^^ block.getD i.val 0
    absorb count (bs.drop rate) (permute mixed)

def digest (message : Bytes) : Bytes :=
  let padded := pad message
  let s := absorb (padded.length / rate) padded (Vector.replicate 25 0)
  [s[0], s[1], s[2], s[3]].flatMap fun word => Bytes.ofNatLE 8 word.toNat

@[simp] theorem length_digest (message : Bytes) : (digest message).length = 32 := by
  simp [digest]

end Keccak

end LedgerWire
