import LedgerWire.Number.Power

/-!
# Byte strings and the integers they spell

An integer of a fixed size is spelled least byte first on the wire and greatest byte first in the
seeds of addresses. A signed integer is spelled as its two's complement.
-/

namespace LedgerWire

abbrev Bytes := List UInt8

namespace Bytes

/-- The greatest length of a byte string: its size in memory, with a header of 33 bytes, is below
`2 ^ 63`. -/
def maxLength : Nat := 2 ^ 63 - 34

/-- The `size` lowest bytes of `n`, least first. -/
def ofNatLE : (size n : Nat) → Bytes
  | 0, _ => []
  | size + 1, n => UInt8.ofNat n :: ofNatLE size (n / 256)

/-- The number spelled least byte first. -/
def toNatLE : Bytes → Nat
  | [] => 0
  | b :: bs => b.toNat + 256 * toNatLE bs

/-- The `size` lowest bytes of `n`, greatest first. -/
def ofNatBE (size n : Nat) : Bytes := (ofNatLE size n).reverse

/-- The number spelled greatest byte first. -/
def toNatBE (bs : Bytes) : Nat := bs.foldl (fun n b => 256 * n + b.toNat) 0

/-- The two's complement of `n` in `size` bytes, least first. -/
def ofIntLE (size : Nat) (n : Int) : Bytes := ofNatLE size (n % (256 ^ size : Nat)).toNat

/-- The integer whose two's complement is spelled least byte first. -/
def toIntLE (bs : Bytes) : Int :=
  let n := bs.toNatLE
  if 2 * n < 256 ^ bs.length then n else (n : Int) - (256 ^ bs.length : Nat)

@[simp] theorem length_ofNatLE (size n : Nat) : (ofNatLE size n).length = size := by
  induction size generalizing n with
  | zero => rfl
  | succ size ih => simp [ofNatLE, ih]

@[simp] theorem length_ofNatBE (size n : Nat) : (ofNatBE size n).length = size := by
  simp [ofNatBE]

@[simp] theorem toNatLE_ofNatLE (size n : Nat) : toNatLE (ofNatLE size n) = n % 256 ^ size := by
  induction size generalizing n with
  | zero => simp [ofNatLE, toNatLE, Nat.mod_one]
  | succ size ih =>
    have : 256 ^ (size + 1) = 256 * 256 ^ size := Nat.pow_succ'
    rw [ofNatLE, toNatLE, ih, UInt8.toNat_ofNat', this, Nat.mod_mul]

theorem toNatLE_lt (bs : Bytes) : bs.toNatLE < 256 ^ bs.length := by
  induction bs with
  | nil => simp [toNatLE]
  | cons b bs ih =>
    have := b.toNat_lt
    simp only [toNatLE, List.length_cons, Nat.pow_succ']
    omega

@[simp] theorem ofNatLE_toNatLE (bs : Bytes) : ofNatLE bs.length bs.toNatLE = bs := by
  induction bs with
  | nil => rfl
  | cons b bs ih =>
    have hb := b.toNat_lt
    have hd : (b.toNat + 256 * toNatLE bs) / 256 = toNatLE bs := by omega
    simp only [toNatLE, List.length_cons, ofNatLE, hd, ih, List.cons.injEq, and_true]
    apply UInt8.toNat_inj.1
    simp only [UInt8.toNat_ofNat']
    omega

/-! ### Greatest byte first -/

@[simp] theorem toNatBE_concat (bs : Bytes) (b : UInt8) :
    toNatBE (bs ++ [b]) = 256 * toNatBE bs + b.toNat := by
  simp [toNatBE]

@[simp] theorem toNatBE_reverse (bs : Bytes) : toNatBE bs.reverse = toNatLE bs := by
  induction bs with
  | nil => rfl
  | cons b bs ih =>
    rw [List.reverse_cons, toNatBE_concat, ih, toNatLE]
    omega

@[simp] theorem toNatBE_ofNatBE (size n : Nat) : toNatBE (ofNatBE size n) = n % 256 ^ size := by
  rw [ofNatBE, toNatBE_reverse, toNatLE_ofNatLE]

@[simp] theorem ofNatBE_toNatBE (bs : Bytes) : ofNatBE bs.length bs.toNatBE = bs := by
  have h := congrArg List.reverse (ofNatLE_toNatLE bs.reverse)
  rwa [← toNatBE_reverse, List.length_reverse, List.reverse_reverse] at h

theorem toNatBE_lt (bs : Bytes) : bs.toNatBE < 256 ^ bs.length := by
  have h := toNatLE_lt bs.reverse
  rwa [← toNatBE_reverse, List.reverse_reverse, List.length_reverse] at h

end Bytes

end LedgerWire
