import LedgerWire.Text.Utf8
import LedgerWire.Proofs.Result
import Mathlib.Tactic.SplitIfs

/-!
# UTF-8 has one spelling for each text

`decode_encode` reads back every text without surrogates, and `encode_decode` writes again every byte
string that is read. Both go character by character: a lead byte tells how many bytes follow it and
where the first of them lies, which leaves exactly the shortest spellings of code points that are no
surrogates.
-/

namespace LedgerWire

namespace Utf8

theorem toNat_ofNat {n : Nat} (h : n < 256) : (UInt8.ofNat n).toNat = n :=
  UInt8.toNat_ofNat_of_lt' h

/-! ### Lead bytes -/

theorem continuation?_one {lead low high : Nat} (h : continuation? lead = some (1, low, high)) :
    0xC2 ≤ lead ∧ lead < 0xE0 ∧ low = 0x80 ∧ high = 0xBF := by
  unfold continuation? at h
  split_ifs at h <;> simp at h
  omega

theorem continuation?_two {lead low high : Nat} (h : continuation? lead = some (2, low, high)) :
    0xE0 ≤ lead ∧ lead < 0xF0 ∧ 0x80 ≤ low ∧ high ≤ 0xBF ∧
      (lead = 0xE0 → 0xA0 ≤ low) ∧ (lead = 0xED → high ≤ 0x9F) := by
  unfold continuation? at h
  split_ifs at h <;> simp at h <;> omega

theorem continuation?_three {lead count low high : Nat}
    (h : continuation? lead = some (count, low, high)) (h1 : count ≠ 1) (h2 : count ≠ 2) :
    0xF0 ≤ lead ∧ lead ≤ 0xF4 ∧ 0x80 ≤ low ∧ high ≤ 0xBF ∧
      (lead = 0xF0 → 0x90 ≤ low) ∧ (lead = 0xF4 → high ≤ 0x8F) := by
  unfold continuation? at h
  split_ifs at h <;> simp at h <;> omega

/-! ### One character from its bytes -/

theorem encodeOne_one {lead : UInt8} (h : lead.toNat < 0x80) :
    encodeOne (CodePoint.ofNat lead.toNat) = [lead] := by
  have hv := CodePoint.val_ofNat (n := lead.toNat) (by omega)
  simp only [encodeOne, hv, if_pos h, UInt8.ofNat_toNat]

theorem encodeOne_two {lead b : UInt8} {low high : Nat}
    (h : continuation? lead.toNat = some (1, low, high)) (hl : low ≤ b.toNat) (hh : b.toNat ≤ high) :
    encodeOne (CodePoint.ofNat (lead.toNat % 0x20 * 0x40 + tailBits b)) = [lead, b] := by
  obtain ⟨h1, h2, rfl, rfl⟩ := continuation?_one h
  unfold tailBits
  have hv := CodePoint.val_ofNat (n := lead.toNat % 0x20 * 0x40 + b.toNat % 0x40) (by omega)
  unfold encodeOne
  rw [hv, if_neg (by omega), if_pos (by omega)]
  simp only [List.cons.injEq, and_true, ← UInt8.toNat_inj, UInt8.toNat_ofNat']
  omega

theorem encodeOne_three {lead b₁ b₂ : UInt8} {low high : Nat}
    (h : continuation? lead.toNat = some (2, low, high)) (hl : low ≤ b₁.toNat)
    (hh : b₁.toNat ≤ high) (ht : isTail b₂) :
    encodeOne (CodePoint.ofNat ((lead.toNat % 0x10 * 0x40 + tailBits b₁) * 0x40 + tailBits b₂)) =
      [lead, b₁, b₂] := by
  obtain ⟨h1, h2, h3, h4, h5, -⟩ := continuation?_two h
  simp only [isTail, Bool.and_eq_true, decide_eq_true_eq] at ht
  unfold tailBits
  have hv := CodePoint.val_ofNat
    (n := (lead.toNat % 0x10 * 0x40 + b₁.toNat % 0x40) * 0x40 + b₂.toNat % 0x40) (by omega)
  unfold encodeOne
  rw [hv, if_neg (by omega), if_neg (by omega), if_pos (by omega)]
  simp only [List.cons.injEq, and_true, ← UInt8.toNat_inj, UInt8.toNat_ofNat']
  omega

theorem encodeOne_four {lead b₁ b₂ b₃ : UInt8} {count low high : Nat}
    (h : continuation? lead.toNat = some (count, low, high)) (hc1 : count ≠ 1) (hc2 : count ≠ 2)
    (hl : low ≤ b₁.toNat) (hh : b₁.toNat ≤ high) (ht : isTail b₂) (ht' : isTail b₃) :
    encodeOne (CodePoint.ofNat (((lead.toNat % 0x08 * 0x40 + tailBits b₁) * 0x40 + tailBits b₂) * 0x40
      + tailBits b₃)) = [lead, b₁, b₂, b₃] := by
  obtain ⟨h1, h2, h3, h4, h5, h6⟩ := continuation?_three h hc1 hc2
  simp only [isTail, Bool.and_eq_true, decide_eq_true_eq] at ht ht'
  unfold tailBits
  have hv := CodePoint.val_ofNat
    (n := ((lead.toNat % 0x08 * 0x40 + b₁.toNat % 0x40) * 0x40 + b₂.toNat % 0x40) * 0x40
      + b₃.toNat % 0x40) (by omega)
  unfold encodeOne
  rw [hv, if_neg (by omega), if_neg (by omega), if_neg (by omega)]
  simp only [List.cons.injEq, and_true, ← UInt8.toNat_inj, UInt8.toNat_ofNat']
  omega

theorem isSurrogate_ofNat {n : Nat} (h : n < 0x110000) (hn : n < 0xD800 ∨ 0xDFFF < n) :
    (CodePoint.ofNat n).isSurrogate = false := by
  simp only [CodePoint.isSurrogate, CodePoint.val_ofNat h, Bool.and_eq_false_iff,
    decide_eq_false_iff_not]
  omega

theorem isSurrogate_two {lead b : UInt8} :
    (CodePoint.ofNat (lead.toNat % 0x20 * 0x40 + tailBits b)).isSurrogate = false := by
  unfold tailBits
  exact isSurrogate_ofNat (by omega) (by omega)

/-- No lead byte and range of its neighbour reach a surrogate. -/
theorem isSurrogate_three {lead b₁ b₂ : UInt8} {low high : Nat}
    (h : continuation? lead.toNat = some (2, low, high)) (hl : low ≤ b₁.toNat)
    (hh : b₁.toNat ≤ high) :
    (CodePoint.ofNat
      ((lead.toNat % 0x10 * 0x40 + tailBits b₁) * 0x40 + tailBits b₂)).isSurrogate = false := by
  obtain ⟨h1, h2, h3, h4, h5, h6⟩ := continuation?_two h
  unfold tailBits
  exact isSurrogate_ofNat (by omega) (by omega)

theorem isSurrogate_four {lead b₁ b₂ b₃ : UInt8} {count low high : Nat}
    (h : continuation? lead.toNat = some (count, low, high)) (hc1 : count ≠ 1) (hc2 : count ≠ 2)
    (hl : low ≤ b₁.toNat) (hh : b₁.toNat ≤ high) :
    (CodePoint.ofNat (((lead.toNat % 0x08 * 0x40 + tailBits b₁) * 0x40 + tailBits b₂) * 0x40
      + tailBits b₃)).isSurrogate = false := by
  obtain ⟨h1, h2, h3, h4, h5, h6⟩ := continuation?_three h hc1 hc2
  unfold tailBits
  exact isSurrogate_ofNat (by omega) (by omega)

/-! ### Writing what was read -/

theorem encode_decodeAt {position : Nat} {bs : Bytes} {t : Text}
    (h : decodeAt position bs = .ok t) :
    t.flatMap encodeOne = bs ∧ ∀ c ∈ t, c.isSurrogate = false := by
  fun_induction decodeAt position bs generalizing t with
  | case1 =>
    cases h
    simp
  | case2 position lead rest found hlead =>
    rename_i ih
    obtain ⟨t, ht, rfl⟩ := map_eq_ok.mp h
    obtain ⟨h1, h2⟩ := ih ht
    exact ⟨by simp [h1, encodeOne_one hlead],
      List.forall_mem_cons.mpr ⟨isSurrogate_ofNat (by omega) (by omega), h2⟩⟩
  | case6 position lead found hlead low high b rest hb hc =>
    rename_i ih
    simp only [Bool.or_eq_true, decide_eq_true_eq, not_or, Nat.not_lt] at hb
    obtain ⟨t, ht, rfl⟩ := map_eq_ok.mp h
    obtain ⟨h1, h2⟩ := ih ht
    exact ⟨by simp [h1, encodeOne_two hc hb.1 hb.2],
      List.forall_mem_cons.mpr ⟨isSurrogate_two, h2⟩⟩
  | case9 position lead found hlead low high b₁ hb b₂ rest ht hc h1 =>
    rename_i ih
    simp only [Bool.or_eq_true, decide_eq_true_eq, not_or, Nat.not_lt] at hb
    simp only [Bool.not_eq_true, Bool.not_eq_false'] at ht
    obtain ⟨t, ht', rfl⟩ := map_eq_ok.mp h
    obtain ⟨h2, h3⟩ := ih ht'
    exact ⟨by simp [h2, encodeOne_three hc hb.1 hb.2 ht],
      List.forall_mem_cons.mpr ⟨isSurrogate_three hc hb.1 hb.2, h3⟩⟩
  | case12 position lead found hlead count low high hc b₁ hb h1 b₂ ht h2 b₃ rest ht' =>
    rename_i ih
    simp only [Bool.or_eq_true, decide_eq_true_eq, not_or, Nat.not_lt] at hb
    simp only [Bool.not_eq_true, Bool.not_eq_false'] at ht ht'
    obtain ⟨t, ht'', rfl⟩ := map_eq_ok.mp h
    obtain ⟨h3, h4⟩ := ih ht''
    exact ⟨by simp [h3, encodeOne_four hc h1 h2 hb.1 hb.2 ht ht'],
      List.forall_mem_cons.mpr ⟨isSurrogate_four hc h1 h2 hb.1 hb.2, h4⟩⟩
  | _ => cases h

/-! ### Reading what was written -/

theorem decodeAt_one {lead : UInt8} (h : lead.toNat < 0x80) (position : Nat) (rest : Bytes) :
    decodeAt position (lead :: rest) =
      (decodeAt (position + 1) rest).map (CodePoint.ofNat lead.toNat :: ·) := by
  rw [decodeAt, if_pos h]

theorem decodeAt_two {lead b : UInt8} {low high : Nat}
    (h : continuation? lead.toNat = some (1, low, high)) (hl : low ≤ b.toNat) (hh : b.toNat ≤ high)
    (position : Nat) (rest : Bytes) :
    decodeAt position (lead :: b :: rest) = (decodeAt (position + 2) rest).map
      (CodePoint.ofNat (lead.toNat % 0x20 * 0x40 + tailBits b) :: ·) := by
  have hlead := continuation?_one h
  have hb : ¬ (decide (b.toNat < low) || decide (high < b.toNat)) = true := by
    simp only [Bool.or_eq_true, decide_eq_true_eq]
    omega
  rw [decodeAt, if_neg (by omega)]
  simp only [h, if_neg hb, if_true]

theorem decodeAt_three {lead b₁ b₂ : UInt8} {low high : Nat}
    (h : continuation? lead.toNat = some (2, low, high)) (hl : low ≤ b₁.toNat)
    (hh : b₁.toNat ≤ high) (ht : isTail b₂) (position : Nat) (rest : Bytes) :
    decodeAt position (lead :: b₁ :: b₂ :: rest) = (decodeAt (position + 3) rest).map
      (CodePoint.ofNat ((lead.toNat % 0x10 * 0x40 + tailBits b₁) * 0x40 + tailBits b₂) :: ·) := by
  have hlead := continuation?_two h
  have hb : ¬ (decide (b₁.toNat < low) || decide (high < b₁.toNat)) = true := by
    simp only [Bool.or_eq_true, decide_eq_true_eq]
    omega
  rw [decodeAt, if_neg (by omega)]
  simp only [h, if_neg hb, ht, Bool.not_true, Bool.false_eq_true, if_false]
  rfl

theorem decodeAt_four {lead b₁ b₂ b₃ : UInt8} {low high : Nat}
    (h : continuation? lead.toNat = some (3, low, high)) (hl : low ≤ b₁.toNat)
    (hh : b₁.toNat ≤ high) (ht : isTail b₂) (ht' : isTail b₃) (position : Nat) (rest : Bytes) :
    decodeAt position (lead :: b₁ :: b₂ :: b₃ :: rest) = (decodeAt (position + 4) rest).map
      (CodePoint.ofNat (((lead.toNat % 0x08 * 0x40 + tailBits b₁) * 0x40 + tailBits b₂) * 0x40
        + tailBits b₃) :: ·) := by
  have hlead := continuation?_three h (by decide) (by decide)
  have hb : ¬ (decide (b₁.toNat < low) || decide (high < b₁.toNat)) = true := by
    simp only [Bool.or_eq_true, decide_eq_true_eq]
    omega
  rw [decodeAt, if_neg (by omega)]
  simp only [h, if_neg hb, ht, ht', Bool.not_true, Bool.false_eq_true, if_false]
  rfl

theorem continuation?_of_two {lead : Nat} (h1 : 0xC2 ≤ lead) (h2 : lead < 0xE0) :
    continuation? lead = some (1, 0x80, 0xBF) := by
  unfold continuation?
  rw [if_neg (by omega), if_pos h2]

theorem continuation?_of_three (lead b : Nat) (h1 : 0xE0 ≤ lead) (h2 : lead < 0xF0)
    (hl : 0x80 ≤ b) (hh : b ≤ 0xBF) (h3 : lead = 0xE0 → 0xA0 ≤ b) (h4 : lead = 0xED → b ≤ 0x9F) :
    ∃ low high, continuation? lead = some (2, low, high) ∧ low ≤ b ∧ b ≤ high := by
  unfold continuation?
  rw [if_neg (by omega), if_neg (by omega)]
  by_cases h5 : lead = 0xE0
  · exact ⟨0xA0, 0xBF, if_pos h5, h3 h5, hh⟩
  · by_cases h6 : lead = 0xED
    · exact ⟨0x80, 0x9F, by rw [if_neg h5, if_pos h6], hl, h4 h6⟩
    · exact ⟨0x80, 0xBF, by rw [if_neg h5, if_neg h6, if_pos h2], hl, hh⟩

theorem continuation?_of_four (lead b : Nat) (h1 : 0xF0 ≤ lead) (h2 : lead ≤ 0xF4)
    (hl : 0x80 ≤ b) (hh : b ≤ 0xBF) (h3 : lead = 0xF0 → 0x90 ≤ b) (h4 : lead = 0xF4 → b ≤ 0x8F) :
    ∃ low high, continuation? lead = some (3, low, high) ∧ low ≤ b ∧ b ≤ high := by
  unfold continuation?
  rw [if_neg (by omega), if_neg (by omega), if_neg (by omega), if_neg (by omega), if_neg (by omega)]
  by_cases h5 : lead = 0xF0
  · exact ⟨0x90, 0xBF, if_pos h5, h3 h5, hh⟩
  · by_cases h6 : lead < 0xF4
    · exact ⟨0x80, 0xBF, by rw [if_neg h5, if_pos h6], hl, hh⟩
    · exact ⟨0x80, 0x8F, by rw [if_neg h5, if_neg h6, if_pos (by omega)], hl, h4 (by omega)⟩

/-- The bytes after the first one have six bits of the code point each. -/
@[simp] theorem toNat_tail (n : Nat) : (UInt8.ofNat (0x80 + n % 0x40)).toNat = 0x80 + n % 0x40 :=
  toNat_ofNat (by omega)

@[simp] theorem tailBits_tail (n : Nat) : tailBits (UInt8.ofNat (0x80 + n % 0x40)) = n % 0x40 := by
  unfold tailBits
  rw [toNat_tail]
  omega

theorem isTail_tail (n : Nat) : isTail (UInt8.ofNat (0x80 + n % 0x40)) := by
  simp only [isTail, toNat_tail, Bool.and_eq_true, decide_eq_true_eq]
  omega

theorem decodeAt_two_of {n : Nat} (h1 : 0x80 ≤ n) (h2 : n < 0x800) (position : Nat) (rest : Bytes) :
    decodeAt position (UInt8.ofNat (0xC0 + n / 0x40) :: UInt8.ofNat (0x80 + n % 0x40) :: rest) =
      (decodeAt (position + 2) rest).map (CodePoint.ofNat n :: ·) := by
  have hlead : (UInt8.ofNat (0xC0 + n / 0x40)).toNat = 0xC0 + n / 0x40 := toNat_ofNat (by omega)
  have hb := toNat_tail n
  have hcont : continuation? (0xC0 + n / 0x40) = _ := continuation?_of_two (by omega) (by omega)
  rw [decodeAt_two (by rwa [hlead]) (by omega) (by omega), hlead, tailBits_tail]
  have : (0xC0 + n / 0x40) % 0x20 * 0x40 + n % 0x40 = n := by omega
  rw [this]

theorem decodeAt_three_of {n : Nat} (h1 : 0x800 ≤ n) (h2 : n < 0x10000)
    (hn : n < 0xD800 ∨ 0xDFFF < n) (position : Nat) (rest : Bytes) :
    decodeAt position (UInt8.ofNat (0xE0 + n / 0x1000) :: UInt8.ofNat (0x80 + n / 0x40 % 0x40) ::
        UInt8.ofNat (0x80 + n % 0x40) :: rest) =
      (decodeAt (position + 3) rest).map (CodePoint.ofNat n :: ·) := by
  have hlead : (UInt8.ofNat (0xE0 + n / 0x1000)).toNat = 0xE0 + n / 0x1000 := toNat_ofNat (by omega)
  have hb := toNat_tail (n / 0x40)
  obtain ⟨low, high, hcont, hl, hh⟩ := continuation?_of_three (0xE0 + n / 0x1000)
    (0x80 + n / 0x40 % 0x40) (by omega) (by omega) (by omega) (by omega) (by omega) (by omega)
  rw [decodeAt_three (by rwa [hlead]) (by omega) (by omega) (isTail_tail n), hlead, tailBits_tail,
    tailBits_tail]
  have : ((0xE0 + n / 0x1000) % 0x10 * 0x40 + n / 0x40 % 0x40) * 0x40 + n % 0x40 = n := by omega
  rw [this]

theorem decodeAt_four_of {n : Nat} (h1 : 0x10000 ≤ n) (h2 : n < 0x110000) (position : Nat)
    (rest : Bytes) :
    decodeAt position (UInt8.ofNat (0xF0 + n / 0x40000) ::
        UInt8.ofNat (0x80 + n / 0x1000 % 0x40) :: UInt8.ofNat (0x80 + n / 0x40 % 0x40) ::
        UInt8.ofNat (0x80 + n % 0x40) :: rest) =
      (decodeAt (position + 4) rest).map (CodePoint.ofNat n :: ·) := by
  have hlead : (UInt8.ofNat (0xF0 + n / 0x40000)).toNat = 0xF0 + n / 0x40000 :=
    toNat_ofNat (by omega)
  have hb := toNat_tail (n / 0x1000)
  obtain ⟨low, high, hcont, hl, hh⟩ := continuation?_of_four (0xF0 + n / 0x40000)
    (0x80 + n / 0x1000 % 0x40) (by omega) (by omega) (by omega) (by omega) (by omega) (by omega)
  rw [decodeAt_four (by rwa [hlead]) (by omega) (by omega) (isTail_tail _) (isTail_tail n), hlead,
    tailBits_tail, tailBits_tail, tailBits_tail]
  have : (((0xF0 + n / 0x40000) % 0x08 * 0x40 + n / 0x1000 % 0x40) * 0x40 + n / 0x40 % 0x40) * 0x40
      + n % 0x40 = n := by omega
  rw [this]

/-- One character is read back, whatever follows it. -/
theorem decodeAt_encodeOne {c : CodePoint} (hc : c.isSurrogate = false) (position : Nat)
    (rest : Bytes) :
    ∃ next, decodeAt position (encodeOne c ++ rest) = (decodeAt next rest).map (c :: ·) := by
  have hlt := c.isLt
  simp only [CodePoint.isSurrogate, Bool.and_eq_false_iff, decide_eq_false_iff_not] at hc
  unfold encodeOne
  by_cases h1 : c.val < 0x80
  · have hlead : (UInt8.ofNat c.val).toNat = c.val := toNat_ofNat (by omega)
    refine ⟨position + 1, ?_⟩
    simp only [if_pos h1, List.singleton_append]
    rw [decodeAt_one (by omega), hlead, CodePoint.ofNat_val]
  by_cases h2 : c.val < 0x800
  · have := decodeAt_two_of (by omega) h2 position rest
    rw [CodePoint.ofNat_val] at this
    simp only [if_neg h1, if_pos h2]
    exact ⟨position + 2, this⟩
  by_cases h3 : c.val < 0x10000
  · have := decodeAt_three_of (by omega) h3 (by omega) position rest
    rw [CodePoint.ofNat_val] at this
    simp only [if_neg h1, if_neg h2, if_pos h3]
    exact ⟨position + 3, this⟩
  · have := decodeAt_four_of (by omega) hlt position rest
    rw [CodePoint.ofNat_val] at this
    simp only [if_neg h1, if_neg h2, if_neg h3]
    exact ⟨position + 4, this⟩

theorem decodeAt_flatMap {t : Text} (ht : ∀ c ∈ t, c.isSurrogate = false) (position : Nat) :
    decodeAt position (t.flatMap encodeOne) = .ok t := by
  induction t generalizing position with
  | nil => rfl
  | cons c t ih =>
    obtain ⟨hc, ht⟩ := List.forall_mem_cons.mp ht
    obtain ⟨next, h⟩ := decodeAt_encodeOne hc position (t.flatMap encodeOne)
    rw [List.flatMap_cons, h, ih ht]
    rfl

/-! ### Whole texts -/

theorem surrogateRun?_eq_none {start : Nat} {t : Text} :
    surrogateRun? start t = none ↔ ∀ c ∈ t, c.isSurrogate = false := by
  induction t generalizing start with
  | nil => simp [surrogateRun?]
  | cons c t ih =>
    unfold surrogateRun?
    by_cases hc : c.isSurrogate <;> simp [hc, ih]

theorem length_encodeOne_le (c : CodePoint) : (encodeOne c).length ≤ 4 := by
  simp only [encodeOne]
  split_ifs <;> simp

theorem length_flatMap_le (t : Text) : (t.flatMap encodeOne).length ≤ t.length * 4 := by
  induction t with
  | nil => exact Nat.zero_le 0
  | cons c t ih =>
    have := length_encodeOne_le c
    rw [List.flatMap_cons, List.length_append, List.length_cons]
    omega

theorem encode_eq_ok {t : Text} {bs : Bytes} :
    encode t = .ok bs ↔ (∀ c ∈ t, c.isSurrogate = false) ∧ t.flatMap encodeOne = bs := by
  unfold encode
  cases hrun : surrogateRun? 0 t with
  | some fault =>
    have : ¬ ∀ c ∈ t, c.isSurrogate = false := fun h => by
      rw [surrogateRun?_eq_none.mpr h] at hrun
      cases hrun
    simp [this]
  | none =>
    have := surrogateRun?_eq_none.mp hrun
    simp only [Except.ok.injEq]
    exact ⟨fun h => ⟨this, h⟩, fun h => h.2⟩

theorem decode_encode {t : Text} {bs : Bytes} (h : encode t = .ok bs) : decode bs = .ok t := by
  obtain ⟨ht, rfl⟩ := encode_eq_ok.mp h
  exact decodeAt_flatMap ht 0

theorem encode_decode {t : Text} {bs : Bytes} (h : decode bs = .ok t) : encode t = .ok bs := by
  obtain ⟨h1, h2⟩ := encode_decodeAt h
  exact encode_eq_ok.mpr ⟨h2, h1⟩

end Utf8

end LedgerWire
