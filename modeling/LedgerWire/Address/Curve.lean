import LedgerWire.Hash.Sha512
import LedgerWire.Value.Bytes
import LedgerWire.Value.Parts

/-!
# The Edwards curve of public keys

The curve `-x² + y² = 1 + d x² y²` over the integers modulo `p = 2²⁵⁵ - 19`. Thirty-two bytes encode a
point by `y`, least byte first, and the sign of `x` in the top bit. `isOnCurve` tells whether they
encode any point, and `publicKey` computes the point of a secret seed.
-/

namespace LedgerWire

namespace Curve

def p : Nat := 2 ^ 255 - 19

/-- The constant of the curve: `-121665 / 121666`. -/
def d : Nat := 37095705934669439343138083508754565189542113879843219016388785533085940283555

theorem mul_d_add_mod : (121666 * d + 121665) % p = 0 := by decide

/-- `base ^ exponent` modulo `modulus`, by squaring; `fuel` bounds the bits of the exponent. -/
def powModAux (modulus : Nat) : (fuel base exponent : Nat) → Nat
  | 0, _, _ => 1 % modulus
  | fuel + 1, base, exponent =>
    let rest := powModAux modulus fuel (base * base % modulus) (exponent / 2)
    if exponent % 2 = 1 then base * rest % modulus else rest

def powMod (base exponent modulus : Nat) : Nat :=
  powModAux modulus (exponent.log2 + 1) base exponent

theorem powModAux_eq (modulus fuel base exponent : Nat) (h : exponent < 2 ^ fuel) :
    powModAux modulus fuel base exponent = base ^ exponent % modulus := by
  induction fuel generalizing base exponent with
  | zero =>
    have : exponent = 0 := by simpa using h
    simp [powModAux, this]
  | succ fuel ih =>
    have hlt : exponent / 2 < 2 ^ fuel := by
      rw [Nat.pow_succ] at h
      omega
    simp only [powModAux, ih _ _ hlt]
    have hsq : (base * base % modulus) ^ (exponent / 2) % modulus
        = base ^ (2 * (exponent / 2)) % modulus := by
      rw [← Nat.pow_mod, Nat.pow_mul, Nat.pow_two]
    split
    · next hodd =>
      have he : exponent = 2 * (exponent / 2) + 1 := by omega
      rw [hsq, Nat.mul_mod_mod, Nat.mul_comm, ← Nat.pow_succ, Nat.succ_eq_add_one, ← he]
    · next heven =>
      have he : exponent = 2 * (exponent / 2) := by omega
      rw [hsq, ← he]

theorem powMod_eq (base exponent modulus : Nat) :
    powMod base exponent modulus = base ^ exponent % modulus :=
  powModAux_eq _ _ _ _ Nat.lt_log2_self

/-- The inverse modulo `p` of what has one, and zero of zero. -/
def inverse (n : Nat) : Nat := powMod n (p - 2) p

/-- The `y` that bytes encode. -/
def yOf (point : Bytes) : Nat := point.toNatLE % 2 ^ 255

/-- The `x²` that belongs to a `y`. -/
def xSquared (y : Nat) : Nat :=
  let y2 := y * y % p
  (y2 + (p - 1)) % p * inverse ((d * y2 + 1) % p) % p

/-- Whether a number below `p` is a square modulo `p`, by its power to half of `p - 1`. -/
def isSquare (n : Nat) : Bool := n == 0 || powMod n ((p - 1) / 2) p == 1

/-- Whether thirty-two bytes encode a point. -/
def isOnCurve (point : Bytes) : Bool := isSquare (xSquared (yOf point))

/-- How many bytes encode a point. -/
def pointSize : Nat := 32

inductive Fault
  | pointLength (got : Nat)
  | pointKind (kind : Kind)
  | point (fault : CastFault)
  | seedLength
  | seedKind
  deriving DecidableEq, Repr

def Fault.message : Fault → Text
  | .pointLength got => Text.join ["Curve points are ", Text.ofNat pointSize, " bytes, got ",
      Text.ofNat got]
  | .pointKind kind => Text.join ["object of type '", kind.name, "' has no len()"]
  | .point fault => fault.message
  | .seedLength => "The seed must be exactly 32 bytes long"
  | .seedKind => "SigningKey must be created from a 32 byte seed"

/-- Whether a value encodes a point. Its parts, of which there have to be thirty-two, are counted before
they are looked at. -/
def checkPoint (point : Value) : Except Fault Bool := do
  let some parts := point.parts? | .error (.pointKind point.kind)
  if parts.length ≠ pointSize then .error (.pointLength parts.length)
  let bs ← (point.gatherBytes).mapError .point
  pure (isOnCurve bs)

/-- A point in extended coordinates: `x = X / Z`, `y = Y / Z` and `T = X * Y / Z`. -/
structure Point where
  X : Nat
  Y : Nat
  Z : Nat
  T : Nat
  deriving DecidableEq, Repr

namespace Point

def zero : Point := ⟨0, 1, 1, 0⟩

/-- The base point. -/
def base : Point :=
  let x := 15112221349535400772501151409588531511454012693041857206046113283949847762202
  let y := 46316835694926478169428394003475163141307993866256225615783033603165251855960
  ⟨x, y, 1, x * y % p⟩

def add (a b : Point) : Point :=
  let A := (a.Y + (p - a.X)) * (b.Y + (p - b.X)) % p
  let B := (a.Y + a.X) * (b.Y + b.X) % p
  let C := 2 * a.T * b.T * d % p
  let D := 2 * a.Z * b.Z % p
  let E := B + (p - A)
  let F := D + (p - C)
  let G := D + C
  let H := B + A
  ⟨E * F % p, G * H % p, F * G % p, E * H % p⟩

/-- `n` times a point, for `n` below `2 ^ fuel`. -/
def multiple : (fuel n : Nat) → Point → Point
  | 0, _, _ => zero
  | fuel + 1, n, a =>
    let rest := multiple fuel (n / 2) (add a a)
    if n % 2 = 1 then add a rest else rest

def encode (a : Point) : Bytes :=
  let z := inverse a.Z
  let x := a.X * z % p
  let y := a.Y * z % p
  Bytes.ofNatLE 32 (y + (x % 2) * 2 ^ 255)

end Point

/-- The scalar of a secret seed: a multiple of eight whose top bit is the 254th. -/
def scalar (seed : Bytes) : Nat :=
  let n := Bytes.toNatLE ((Sha512.digest seed).take 32)
  n % 2 ^ 254 / 8 * 8 + 2 ^ 254

/-- The encoded public key of a secret seed. -/
def publicKey (seed : Bytes) : Bytes := (Point.multiple 255 (scalar seed) Point.base).encode

/-- The encoded public key for a value that has to be a seed of thirty-two bytes. -/
def publicKeyFor : Value → Except Fault Bytes
  | .bytes seed => if seed.length = 32 then .ok (publicKey seed) else .error .seedLength
  | _ => .error .seedKind

end Curve

end LedgerWire
