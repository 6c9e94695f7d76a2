import LedgerWire.Proofs.Result
import LedgerWire.Proofs.Text.Lowercase
import LedgerWire.Value.Hex

/-!
# What is read as hexadecimal

`Hex.Spells` are the texts with two digits for each byte, and `Hex.Spaced` those in which blanks may
stand between bytes. Behind a mark or none, the spaced texts and no others are read, as the bytes that
they spell. The letter case of digits does not count: a text spells bytes just if its lowercase form is
what is written for them.
-/

namespace LedgerWire

/-! ### Digits -/

namespace Text

variable {c d : CodePoint} {n : Nat}

theorem hexValue?_hexDigit : ∀ d < 16, hexValue? (hexDigit d) = some d := by decide

theorem hexValue?_lt (h : hexValue? c = some n) : n < 16 := by
  simp only [hexValue?, Bool.and_eq_true, decide_eq_true_eq] at h
  split_ifs at h <;> cases h <;> omega

/-- A digit is a digit or a letter of ASCII, of either case, up to the sixth. -/
theorem range_of_hexValue? (h : hexValue? c = some n) :
    (48 ≤ c.val ∧ c.val ≤ 57) ∨ (97 ≤ c.val ∧ c.val ≤ 102) ∨ (65 ≤ c.val ∧ c.val ≤ 70) := by
  simp only [hexValue?, Bool.and_eq_true, decide_eq_true_eq] at h
  split_ifs at h <;> omega

theorem isAscii_of_hexValue? (h : hexValue? c = some n) : c.isAscii = true := by
  have := range_of_hexValue? h
  exact decide_eq_true (by omega)

theorem not_blank_of_hexValue? (h : hexValue? c = some n) : c.isAsciiBlank = false := by
  have := range_of_hexValue? h
  simp only [CodePoint.isAsciiBlank, Bool.or_eq_false_iff, Bool.and_eq_false_iff,
    decide_eq_false_iff_not, beq_eq_false_iff_ne]
  omega

@[simp] theorem hexValue?_small (c : CodePoint) : hexValue? c.small = hexValue? c := by
  by_cases hcapital : 65 ≤ c.val ∧ c.val ≤ 90
  · have hval : c.small.val = c.val + 32 := by rw [CodePoint.val_small, if_pos hcapital]
    simp only [hexValue?, hval, Bool.and_eq_true, decide_eq_true_eq]
    grind
  · rw [CodePoint.small, if_neg hcapital]

/-- The small letter of a digit is the digit that is written for its value. -/
theorem small_of_hexValue? (h : hexValue? c = some n) : c.small = hexDigit n := by
  have hn := hexValue?_lt h
  rw [← hexValue?_small] at h
  have hsmall : ¬ (65 ≤ c.small.val ∧ c.small.val ≤ 90) := by
    rw [CodePoint.val_small]
    split <;> omega
  simp only [hexValue?, Bool.and_eq_true, decide_eq_true_eq] at h
  apply Fin.ext
  unfold hexDigit
  split_ifs at h ⊢ <;> cases h <;> rw [CodePoint.val_ofNat (by omega)] <;> omega

/-- What has a digit as its lowercase form is that digit. -/
theorem hexValue?_of_lowercase (h : c.lowercase = [d]) (hd : hexValue? d = some n) :
    hexValue? c = some n := by
  have hrange := range_of_hexValue? hd
  have hlowers := CodePoint.lowers c
  rw [h] at hlowers
  cases hlowers with
  | ascii hc => rwa [hexValue?_small] at hd
  | kelvin hc => exact absurd hrange (by decide)
  | foreign hc hd hk => omega

end Text

namespace Hex

variable {t : Text} {bs : Bytes}

/-! ### Texts of digits -/

/-- The text has two digits for each byte. -/
inductive Spells : Text → Bytes → Prop
  | nil : Spells [] []
  | cons {c d : CodePoint} {t : Text} {b : UInt8} {bs : Bytes}
    (high : Text.hexValue? c = some (b.toNat / 16)) (low : Text.hexValue? d = some (b.toNat % 16))
    (rest : Spells t bs) : Spells (c :: d :: t) (b :: bs)

/-- The text has two digits for each byte, and blanks of ASCII before, between and behind them. -/
inductive Spaced : Text → Bytes → Prop
  | nil : Spaced [] []
  | blank {c : CodePoint} {t : Text} {bs : Bytes} (blank : c.isAsciiBlank = true)
    (rest : Spaced t bs) : Spaced (c :: t) bs
  | byte {c d : CodePoint} {t : Text} {b : UInt8} {bs : Bytes}
    (high : Text.hexValue? c = some (b.toNat / 16)) (low : Text.hexValue? d = some (b.toNat % 16))
    (rest : Spaced t bs) : Spaced (c :: d :: t) (b :: bs)

/-- What may stand before the digits. -/
def marks : List Text := [[], mark, "0X"]

theorem Spells.spaced (h : Spells t bs) : Spaced t bs := by
  induction h with
  | nil => exact .nil
  | cons high low rest ih => exact .byte high low ih

/-- Without its blanks, a spaced text is one of digits. -/
theorem Spaced.spells (h : Spaced t bs) : Spells (t.filter fun c => !c.isAsciiBlank) bs := by
  induction h with
  | nil => exact .nil
  | blank blank rest ih => rwa [List.filter_cons_of_neg (by rw [blank]; decide)]
  | byte high low rest ih =>
    rw [List.filter_cons_of_pos (by rw [Text.not_blank_of_hexValue? high]; rfl),
      List.filter_cons_of_pos (by rw [Text.not_blank_of_hexValue? low]; rfl)]
    exact .cons high low ih

theorem spells_iff : Spells t bs ↔ Spaced t bs ∧ ∀ c ∈ t, c.isAsciiBlank = false := by
  constructor
  · intro h
    refine ⟨h.spaced, ?_⟩
    induction h with
    | nil => nofun
    | cons high low rest ih =>
      exact List.forall_mem_cons.mpr ⟨Text.not_blank_of_hexValue? high,
        List.forall_mem_cons.mpr ⟨Text.not_blank_of_hexValue? low, ih⟩⟩
  · rintro ⟨h, hblank⟩
    have hspells := h.spells
    rwa [List.filter_eq_self.mpr fun c hc => by rw [hblank c hc]; rfl] at hspells

/-! ### What is read -/

theorem Spaced.isAscii (h : Spaced t bs) : ∀ c ∈ t, c.isAscii = true := by
  have hblank {c : CodePoint} (hc : c.isAsciiBlank = true) : c.isAscii = true := by
    simp only [CodePoint.isAsciiBlank, Bool.or_eq_true, Bool.and_eq_true, decide_eq_true_eq,
      beq_iff_eq] at hc
    exact decide_eq_true (by omega)
  induction h with
  | nil => nofun
  | blank blank rest ih => exact List.forall_mem_cons.mpr ⟨hblank blank, ih⟩
  | byte high low rest ih =>
    exact List.forall_mem_cons.mpr ⟨Text.isAscii_of_hexValue? high,
      List.forall_mem_cons.mpr ⟨Text.isAscii_of_hexValue? low, ih⟩⟩

theorem halves_of_byte {high low : Nat} (hhigh : high < 16) (hlow : low < 16) :
    (UInt8.ofNat (16 * high + low)).toNat / 16 = high ∧
      (UInt8.ofNat (16 * high + low)).toNat % 16 = low := by
  rw [UInt8.toNat_ofNat_of_lt' (show 16 * high + low < 256 by omega)]
  omega

/-- The places of the errors do not matter for what is read. -/
theorem pairs_eq_ok {position : Nat} : pairs position t = .ok bs ↔ Spaced t bs := by
  constructor
  · intro h
    fun_induction pairs position t generalizing bs with
    | case1 position =>
      cases h
      exact .nil
    | case2 position c t hblank ih => exact .blank hblank (ih h)
    | case6 position c hblank high hhigh d t low hlow ih =>
      obtain ⟨rest, hrest, rfl⟩ := map_eq_ok.mp h
      obtain ⟨hdiv, hmod⟩ := halves_of_byte (Text.hexValue?_lt hhigh) (Text.hexValue?_lt hlow)
      exact .byte (by rw [hdiv, hhigh]) (by rw [hmod, hlow]) (ih hrest)
    | _ => cases h
  · intro h
    induction h generalizing position with
    | nil => rfl
    | blank blank rest ih => rw [pairs, if_pos blank, ih]
    | @byte c d t b bs high low rest ih =>
      have hbyte : UInt8.ofNat (16 * (b.toNat / 16) + b.toNat % 16) = b := by
        rw [Nat.div_add_mod, UInt8.ofNat_toNat]
      rw [pairs, Text.not_blank_of_hexValue? high, high]
      simp only [low, ih, hbyte]
      rfl

theorem decodeUnmarked_eq_ok : decodeUnmarked t = .ok bs ↔ Spaced t bs := by
  unfold decodeUnmarked
  constructor
  · intro h
    cases hforeign : t.findIdx? fun c => !c.isAscii with
    | none =>
      rw [hforeign] at h
      exact pairs_eq_ok.mp h
    | some position =>
      rw [hforeign] at h
      cases h
  · intro h
    have hascii : t.findIdx? (fun c => !c.isAscii) = none := by
      rw [List.findIdx?_eq_none_iff]
      intro c hc
      rw [h.isAscii c hc]
      rfl
    rw [hascii]
    exact pairs_eq_ok.mpr h

theorem unmarked_cons {c d : CodePoint} (h : c.val = 0x30 ∧ (d.val = 0x78 ∨ d.val = 0x58)) :
    unmarked (c :: d :: t) = t :=
  if_pos h

/-- A mark is no beginning of a spaced text: its second letter is no digit. -/
theorem Spaced.unmarked (h : Spaced t bs) : unmarked t = t := by
  cases h with
  | nil => rfl
  | @blank c t bs blank rest =>
    cases t with
    | nil => rfl
    | cons d t =>
      refine if_neg fun hmark => ?_
      rw [CodePoint.isAsciiBlank, hmark.1] at blank
      cases blank
  | byte high low rest =>
    have := Text.range_of_hexValue? low
    exact if_neg fun hmark => by omega

theorem exists_marked (t : Text) : ∃ m ∈ marks, t = m ++ unmarked t := by
  rcases t with _ | ⟨c, _ | ⟨d, t⟩⟩
  · exact ⟨[], List.mem_cons_self, rfl⟩
  · exact ⟨[], List.mem_cons_self, rfl⟩
  · by_cases hmark : c.val = 0x30 ∧ (d.val = 0x78 ∨ d.val = 0x58)
    · rw [unmarked_cons hmark]
      obtain ⟨hc, hd⟩ := hmark
      obtain rfl : c = CodePoint.ofNat 0x30 := Fin.ext hc
      rcases hd with hd | hd
      · obtain rfl : d = CodePoint.ofNat 0x78 := Fin.ext hd
        exact ⟨mark, by decide, rfl⟩
      · obtain rfl : d = CodePoint.ofNat 0x58 := Fin.ext hd
        exact ⟨"0X", by decide, rfl⟩
    · rw [show unmarked (c :: d :: t) = c :: d :: t from if_neg hmark]
      exact ⟨[], List.mem_cons_self, rfl⟩

/-- Spaced texts are read as the bytes that they spell, with a mark before them or without, and nothing
else is read. -/
theorem decode_eq_ok :
    decode t = .ok bs ↔ ∃ m ∈ marks, ∃ body, t = m ++ body ∧ Spaced body bs := by
  unfold decode
  rw [decodeUnmarked_eq_ok]
  constructor
  · intro h
    obtain ⟨m, hm, ht⟩ := exists_marked t
    exact ⟨m, hm, _, ht, h⟩
  · rintro ⟨m, hm, body, rfl, h⟩
    have hunmarked : unmarked (m ++ body) = body := by
      simp only [marks, List.mem_cons, List.not_mem_nil, or_false] at hm
      rcases hm with rfl | rfl | rfl
      · exact h.unmarked
      · exact unmarked_cons ⟨rfl, .inl rfl⟩
      · exact unmarked_cons ⟨rfl, .inr rfl⟩
    rwa [hunmarked]

theorem decodeFitting_eq_ok {fits : Nat → Bool} {expected : Text} :
    decodeFitting fits expected t = .ok bs ↔ decode t = .ok bs ∧ fits bs.length = true := by
  simp only [decodeFitting, bind_eq_ok]
  constructor
  · rintro ⟨bs', h, hfits⟩
    obtain ⟨hlength, rfl⟩ := ite_eq_ok.mp hfits
    exact ⟨h, hlength⟩
  · rintro ⟨h, hlength⟩
    exact ⟨bs, h, ite_eq_ok.mpr ⟨hlength, rfl⟩⟩

theorem decodeExactly_eq_ok {length : Nat} :
    decodeExactly length t = .ok bs ↔ decode t = .ok bs ∧ bs.length = length := by
  rw [decodeExactly, decodeFitting_eq_ok, beq_iff_eq]

theorem Spells.decodeExactly (h : Spells t bs) {m : Text} (hm : m ∈ marks) :
    decodeExactly bs.length (m ++ t) = .ok bs :=
  decodeExactly_eq_ok.mpr ⟨decode_eq_ok.mpr ⟨m, hm, t, rfl, h.spaced⟩, rfl⟩

/-! ### What is written -/

theorem encode_cons (b : UInt8) (bs : Bytes) : encode (b :: bs) =
    Text.hexDigit (b.toNat / 16 % 16) :: Text.hexDigit (b.toNat % 16) :: encode bs := rfl

theorem isAscii_encode (bs : Bytes) : ∀ d ∈ encode bs, d.val < 0x80 := by
  have hdigit : ∀ n < 16, (Text.hexDigit n).val < 0x80 := by decide
  induction bs with
  | nil => nofun
  | cons b bs ih =>
    rw [encode_cons]
    have hhigh := hdigit (b.toNat / 16 % 16) (Nat.mod_lt _ (by decide))
    have hlow := hdigit (b.toNat % 16) (Nat.mod_lt _ (by decide))
    exact List.forall_mem_cons.mpr ⟨hhigh, List.forall_mem_cons.mpr ⟨hlow, ih⟩⟩

theorem spells_of_forall₂ (h : List.Forall₂ (fun c d => CodePoint.lowercase c = [d]) t (encode bs)) :
    Spells t bs := by
  induction bs generalizing t with
  | nil =>
    cases h
    exact .nil
  | cons b bs ih =>
    rw [encode_cons] at h
    obtain _ | ⟨hhigh, _ | ⟨hlow, hrest⟩⟩ := h
    have hlt : b.toNat / 16 < 16 := by
      have := b.toNat_lt
      omega
    rw [Nat.mod_eq_of_lt hlt] at hhigh
    exact .cons (Text.hexValue?_of_lowercase hhigh (Text.hexValue?_hexDigit _ hlt))
      (Text.hexValue?_of_lowercase hlow (Text.hexValue?_hexDigit _ (Nat.mod_lt _ (by decide))))
      (ih hrest)

/-- A text spells the bytes that its lowercase form is written for. -/
theorem spells_of_lowercase (h : t.lowercase = encode bs) : Spells t bs :=
  spells_of_forall₂ (Text.forall₂_of_lowercaseAfter h (isAscii_encode bs))

theorem Spells.lowercase (h : Spells t bs) : t.lowercase = encode bs := by
  have hascii : ∀ c ∈ t, c.val < 0x80 := fun c hc => of_decide_eq_true (h.spaced.isAscii c hc)
  rw [Text.lowercase, Text.lowercaseAfter_of_ascii hascii]
  clear hascii
  induction h with
  | nil => rfl
  | @cons c d t b bs high low rest ih =>
    have hlt := Text.hexValue?_lt high
    rw [List.map_cons, List.map_cons, Text.small_of_hexValue? high, Text.small_of_hexValue? low, ih,
      encode_cons, Nat.mod_eq_of_lt hlt]

end Hex

end LedgerWire
