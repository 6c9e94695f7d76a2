import LedgerWire.Address.Seed
import LedgerWire.Proofs.Schema.Writing
import Mathlib.Data.List.Induction
import Mathlib.Tactic.Ring

/-!
# The numbers that seeds spell

A seed spells a number greatest byte first, the codec least byte first. Both take the same numbers and
write the same bytes in opposite orders. With the greatest byte first, numbers of one size are in the
order of their bytes.
-/

namespace LedgerWire

/-! ### The order of numbers and of bytes -/

namespace Bytes

/-- The digit of more weight decides, and where it is the same, what is behind it. -/
theorem digits_lt_iff {place a b x y : Nat} (hx : x < place) (hy : y < place) :
    a * place + x < b * place + y ↔ a < b ∨ a = b ∧ x < y := by
  rcases Nat.lt_trichotomy a b with hlt | rfl | hgt
  · have hle := Nat.mul_le_mul_right place (Nat.succ_le_of_lt hlt)
    rw [Nat.succ_mul] at hle
    omega
  · omega
  · have hle := Nat.mul_le_mul_right place (Nat.succ_le_of_lt hgt)
    rw [Nat.succ_mul] at hle
    omega

theorem toNatBE_cons (b : UInt8) (bs : Bytes) :
    toNatBE (b :: bs) = b.toNat * 256 ^ bs.length + toNatBE bs := by
  induction bs using List.reverseRecOn with
  | nil => simp [toNatBE]
  | append_singleton bs c ih =>
    rw [← List.cons_append, toNatBE_concat, toNatBE_concat, ih, List.length_append,
      List.length_singleton, Nat.pow_succ]
    ring

/-- Numbers of one size are in the order of their bytes. -/
theorem toNatBE_lt_iff {x y : Bytes} (h : x.length = y.length) :
    x.toNatBE < y.toNatBE ↔ x < y := by
  induction x generalizing y with
  | nil =>
    obtain rfl := List.length_eq_zero_iff.mp h.symm
    simp
  | cons a x ih =>
    cases y with
    | nil => cases h
    | cons b y =>
      have hlen : x.length = y.length := Nat.succ.inj h
      have hx := toNatBE_lt x
      have hy := toNatBE_lt y
      rw [← hlen] at hy
      rw [toNatBE_cons, toNatBE_cons, ← hlen, digits_lt_iff hx hy, ih hlen, List.cons_lt_cons_iff,
        UInt8.lt_iff_toNat_lt, UInt8.toNat_inj]

end Bytes

/-! ### Seeds and numbers -/

namespace Seed

variable {v length : Value} {size : Nat} {bs : Bytes}

theorem ofNumber_natural (hlength : length.toInt? = some (size : Int)) (n : Nat) :
    ofNumber (.int n) length =
      if size ≤ Bytes.maxLength ∧ n < 256 ^ size then .ok (Bytes.ofNatBE size n)
      else .error (.tooLarge n length) := by
  rw [← Int.ofNat_eq_natCast]
  simp only [ofNumber, hlength]
  by_cases hsize : size ≤ Bytes.maxLength
  · have hrange : ¬ ((size : Int) < -2 ^ 63 ∨ (Bytes.maxLength : Int) < size) := by omega
    have hsign : ¬ (size : Int) < 0 := by omega
    simp only [if_neg hrange, if_neg hsign, Int.toNat_natCast, hsize, true_and]
  · have hrange : (size : Int) < -2 ^ 63 ∨ (Bytes.maxLength : Int) < size := by omega
    simp only [if_pos hrange, hsize, false_and, if_false]

/-- What has a spelling: a number that fits in a size that a byte string can have. -/
theorem ofNumber_eq_ok (hlength : length.toInt? = some (size : Int)) :
    ofNumber v length = .ok bs ↔ size ≤ Bytes.maxLength ∧
      ∃ n : Nat, v = .int n ∧ n < 256 ^ size ∧ Bytes.ofNatBE size n = bs := by
  constructor
  · intro h
    cases v with
    | int n =>
      cases n with
      | ofNat n =>
        rw [Int.ofNat_eq_natCast, ofNumber_natural hlength, ite_eq_ok] at h
        obtain ⟨⟨hsize, hn⟩, rfl⟩ := h
        exact ⟨hsize, n, rfl, hn, rfl⟩
      | negSucc n => cases h
    | _ => cases h
  · rintro ⟨hsize, n, rfl, hn, rfl⟩
    rw [ofNumber_natural hlength, if_pos ⟨hsize, hn⟩]

/-- A seed and the codec spell the same numbers, in opposite orders of the bytes. -/
theorem ofNumber_iff_encode (w : Width) :
    ofNumber v (.int w.bytes) = .ok bs ↔ Schema.encode (.integer w false) v = .ok bs.reverse := by
  have hsize : w.bytes ≤ Bytes.maxLength := by cases w <;> decide
  have hlength : (Value.int w.bytes).toInt? = some (w.bytes : Int) := rfl
  simp only [ofNumber_eq_ok hlength, Schema.encode_unsigned, hsize, true_and, Bytes.ofNatBE,
    List.reverse_eq_iff]

theorem toNumber_of_ofNumber (hlength : length.toInt? = some (size : Int))
    (h : ofNumber v length = .ok bs) : bs.length = size ∧ v = .int bs.toNatBE := by
  obtain ⟨-, n, rfl, hn, rfl⟩ := (ofNumber_eq_ok hlength).mp h
  rw [Bytes.toNatBE_ofNatBE, Nat.mod_eq_of_lt hn]
  exact ⟨Bytes.length_ofNatBE size n, rfl⟩

theorem ofNumber_toNatBE (hlength : length.toInt? = some (bs.length : Int))
    (hsize : bs.length ≤ Bytes.maxLength) : ofNumber (.int bs.toNatBE) length = .ok bs := by
  have hbs := Bytes.ofNatBE_toNatBE bs
  exact (ofNumber_eq_ok hlength).mpr ⟨hsize, bs.toNatBE, rfl, Bytes.toNatBE_lt bs, hbs⟩

/-- The numbers that fit in a size and their spellings tell each other, and are in the same order. -/
structure Faithful (length : Value) (size : Nat) : Prop where
  accepts (v : Value) : (∃ bs, ofNumber v length = .ok bs) ↔
    size ≤ Bytes.maxLength ∧ ∃ n : Nat, v = .int n ∧ n < 256 ^ size
  length_eq {v : Value} {bs : Bytes} (h : ofNumber v length = .ok bs) : bs.length = size
  reads {v : Value} {bs : Bytes} (h : ofNumber v length = .ok bs) :
    ∃ n : Nat, toNumber (.bytes bs) = .ok n ∧ v = .int n
  lt_iff {m n : Int} {x y : Bytes} (hx : ofNumber (.int m) length = .ok x)
    (hy : ofNumber (.int n) length = .ok y) : m < n ↔ x < y
  restores {bs : Bytes} (h : bs.length = size) (hsize : size ≤ Bytes.maxLength) :
    ∃ n : Nat, toNumber (.bytes bs) = .ok n ∧ ofNumber (.int n) length = .ok bs

/-- In every size seeds are faithful to numbers and keep their order, and the seed of an identity is what
the codec writes for it, from the other end. -/
theorem spells_in_order (hlength : length.toInt? = some (size : Int)) :
    Faithful length size ∧
      ∀ v seed, ofId v = .ok seed ↔ Schema.u128.encode v = .ok seed.reverse := by
  constructor
  · constructor
    case accepts =>
      intro v
      simp only [ofNumber_eq_ok hlength]
      constructor
      · rintro ⟨bs, hsize, n, hv, hn, -⟩
        exact ⟨hsize, n, hv, hn⟩
      · rintro ⟨hsize, n, hv, hn⟩
        exact ⟨Bytes.ofNatBE size n, hsize, n, hv, hn, rfl⟩
    case length_eq =>
      intro v bs h
      exact (toNumber_of_ofNumber hlength h).1
    case reads =>
      intro v bs h
      exact ⟨bs.toNatBE, rfl, (toNumber_of_ofNumber hlength h).2⟩
    case lt_iff =>
      intro m n x y hx hy
      obtain ⟨hxlen, hm⟩ := toNumber_of_ofNumber hlength hx
      obtain ⟨hylen, hn⟩ := toNumber_of_ofNumber hlength hy
      have hlt := Bytes.toNatBE_lt_iff (hxlen.trans hylen.symm)
      simp only [Value.int.injEq] at hm hn
      rw [hm, hn, Int.ofNat_lt, hlt]
    case restores =>
      intro bs hbs hsize
      subst hbs
      exact ⟨bs.toNatBE, rfl, ofNumber_toNatBE hlength hsize⟩
  · intro v seed
    exact ofNumber_iff_encode .w128

/-- In two bytes, 258 comes before 513, and its seed of 16 bytes is what the codec writes, reversed. -/
theorem spells_in_order_two :
    ofNumber (.int 258) (.int 2) = .ok [1, 2] ∧ ofNumber (.int 513) (.int 2) = .ok [2, 1] ∧
      ((258 : Int) < 513 ↔ ([1, 2] : Bytes) < [2, 1]) ∧
      (∃ n : Nat, toNumber (.bytes [1, 2]) = .ok n ∧ ofNumber (.int n) (.int 2) = .ok [1, 2]) ∧
      ∃ seed, ofId (.int 258) = .ok seed ∧ Schema.u128.encode (.int 258) = .ok seed.reverse := by
  have hlength : (Value.int 2).toInt? = some ((2 : Nat) : Int) := rfl
  have hx : ofNumber (.int 258) (.int 2) = .ok [1, 2] := rfl
  have hy : ofNumber (.int 513) (.int 2) = .ok [2, 1] := rfl
  have hid : ofId (.int 258) = .ok (Bytes.ofNatBE 16 258) := rfl
  obtain ⟨faithful, same⟩ := spells_in_order hlength
  exact ⟨hx, hy, faithful.lt_iff hx hy, faithful.restores rfl (by decide), _, hid,
    (same _ _).mp hid⟩

/-- No byte string has `2 ^ 63` bytes, so not even zero is spelled in that size. -/
theorem zero_not_spelled :
    ¬ ∀ (size : Nat) (v : Value), (∃ bs, ofNumber v (.int size) = .ok bs) ↔
      ∃ n : Nat, v = .int n ∧ n < 256 ^ size := by
  intro h
  have hfits (size : Nat) : ∃ n : Nat, Value.int 0 = .int n ∧ n < 256 ^ size :=
    ⟨0, rfl, Nat.pow_pos (by decide)⟩
  obtain ⟨bs, hbs⟩ := (h (2 ^ 63) (.int 0)).mpr (hfits (2 ^ 63))
  have hrefused : ofNumber (.int 0) (.int (2 ^ 63 : Nat)) =
    .error (.tooLarge 0 (.int (2 ^ 63 : Nat))) := rfl
  rw [hrefused] at hbs
  cases hbs

end Seed

end LedgerWire
