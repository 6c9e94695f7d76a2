import LedgerWire.Account
import LedgerWire.Error.Sort
import LedgerWire.Proofs.Address.Seeds
import LedgerWire.Proofs.Text.Hex

/-!
# Identities in hexadecimal

The identity of a program and the address of an account may be given in hexadecimal. `Hex.IsStrict` are
the texts of just the digits that they take, behind a mark or none. What is accepted are the texts of
`Hex.IsSpaced`, in which blanks stand between bytes besides; every other text is refused for its value.
However it is spelled, an identity is that of the bytes, and all spellings are written alike.
-/

namespace LedgerWire

/-- A digit of ASCII, or one of the first six letters in either case. -/
def CodePoint.IsHexDigit (c : CodePoint) : Prop :=
  (0x30 ≤ c.val ∧ c.val ≤ 0x39) ∨ (0x41 ≤ c.val ∧ c.val ≤ 0x46) ∨ (0x61 ≤ c.val ∧ c.val ≤ 0x66)

theorem Text.exists_hexValue? {c : CodePoint} : (∃ n, hexValue? c = some n) ↔ c.IsHexDigit := by
  unfold CodePoint.IsHexDigit
  constructor
  · rintro ⟨n, h⟩
    have := range_of_hexValue? h
    omega
  · intro h
    simp only [hexValue?, Bool.and_eq_true, decide_eq_true_eq]
    split_ifs
    · exact ⟨_, rfl⟩
    · exact ⟨_, rfl⟩
    · exact ⟨_, rfl⟩
    · omega

namespace Hex

variable {t : Text} {bs : Bytes} {length : Nat}

/-! ### Strict texts and spaced ones -/

/-- Behind a mark or none stand two digits for each of so many bytes, and nothing else. -/
def IsStrict (length : Nat) (t : Text) : Prop :=
  ∃ m ∈ marks, ∃ digits, t = m ++ digits ∧ digits.length = 2 * length ∧
    ∀ c ∈ digits, c.IsHexDigit

/-- Behind a mark or none stand two digits for each of so many bytes, with blanks between bytes. -/
def IsSpaced (length : Nat) (t : Text) : Prop :=
  ∃ m ∈ marks, ∃ body bs, t = m ++ body ∧ Spaced body bs ∧ bs.length = length

theorem Spells.digits (h : Spells t bs) : t.length = 2 * bs.length ∧ ∀ c ∈ t, c.IsHexDigit := by
  induction h with
  | nil => exact ⟨rfl, nofun⟩
  | cons high low rest ih =>
    obtain ⟨hlength, hdigits⟩ := ih
    refine ⟨?_, List.forall_mem_cons.mpr ⟨Text.exists_hexValue?.mp ⟨_, high⟩,
      List.forall_mem_cons.mpr ⟨Text.exists_hexValue?.mp ⟨_, low⟩, hdigits⟩⟩⟩
    simp only [List.length_cons, hlength]
    omega

/-- An even number of digits spells bytes. -/
theorem exists_spells (hlength : t.length = 2 * length) (hdigits : ∀ c ∈ t, c.IsHexDigit) :
    ∃ bs, Spells t bs ∧ bs.length = length := by
  induction length generalizing t with
  | zero =>
    obtain rfl := List.length_eq_zero_iff.mp hlength
    exact ⟨[], .nil, rfl⟩
  | succ length ih =>
    obtain _ | ⟨c, _ | ⟨d, t⟩⟩ := t
    · simp at hlength
    · simp only [List.length_cons, List.length_nil] at hlength
      omega
    · obtain ⟨hc, hd, ht⟩ : c.IsHexDigit ∧ d.IsHexDigit ∧ ∀ c ∈ t, c.IsHexDigit := by
        simpa only [List.forall_mem_cons] using hdigits
      obtain ⟨high, hhigh⟩ := Text.exists_hexValue?.mpr hc
      obtain ⟨low, hlow⟩ := Text.exists_hexValue?.mpr hd
      obtain ⟨bs, hbs, rfl⟩ := ih (by simp only [List.length_cons] at hlength; omega) ht
      obtain ⟨hdiv, hmod⟩ := halves_of_byte (Text.hexValue?_lt hhigh) (Text.hexValue?_lt hlow)
      exact ⟨_, .cons (by rw [hdiv, hhigh]) (by rw [hmod, hlow]) hbs, rfl⟩

theorem not_blank_of_mark {m : Text} (hm : m ∈ marks) : ∀ c ∈ m, c.isAsciiBlank = false := by
  have hmarks : ∀ m ∈ marks, m.all fun c => !c.isAsciiBlank := by decide
  intro c hc
  simpa using List.all_eq_true.mp (hmarks m hm) c hc

/-- Blanks are all that a spaced text may have more than a strict one. -/
theorem isStrict_iff :
    IsStrict length t ↔ IsSpaced length t ∧ ∀ c ∈ t, c.isAsciiBlank = false := by
  constructor
  · rintro ⟨m, hm, digits, rfl, hlength, hdigits⟩
    obtain ⟨bs, hspells, hbs⟩ := exists_spells hlength hdigits
    obtain ⟨hspaced, hblank⟩ := spells_iff.mp hspells
    exact ⟨⟨m, hm, digits, bs, rfl, hspaced, hbs⟩,
      List.forall_mem_append.mpr ⟨not_blank_of_mark hm, hblank⟩⟩
  · rintro ⟨⟨m, hm, body, bs, rfl, hspaced, rfl⟩, hblank⟩
    obtain ⟨-, hbody⟩ := List.forall_mem_append.mp hblank
    obtain ⟨hlength, hdigits⟩ := (spells_iff.mpr ⟨hspaced, hbody⟩).digits
    exact ⟨m, hm, body, rfl, hlength, hdigits⟩

theorem exists_decodeExactly : (∃ bs, decodeExactly length t = .ok bs) ↔ IsSpaced length t := by
  simp only [decodeExactly_eq_ok, decode_eq_ok]
  constructor
  · rintro ⟨bs, ⟨m, hm, body, ht, hspaced⟩, hlength⟩
    exact ⟨m, hm, body, bs, ht, hspaced, hlength⟩
  · rintro ⟨m, hm, body, bs, ht, hspaced, hlength⟩
    exact ⟨bs, ⟨m, hm, body, ht, hspaced⟩, hlength⟩

end Hex

/-! ### Identities of programs and addresses of accounts -/

namespace Address

variable {t : Text} {id : Bytes} {fault : AddressFault}

theorem programOf_text :
    programOf (.text t) = .ok id ↔ Hex.decodeExactly programSize t = .ok id :=
  mapError_eq_ok

theorem programOf_bytes (h : id.length = programSize) : programOf (.bytes id) = .ok id := if_pos h

theorem sort_of_programOf_text (h : programOf (.text t) = .error fault) : fault.sort = .value := by
  obtain ⟨_, -, rfl⟩ := mapError_eq_error.mp h
  rfl

/-- A derivation sees no more of the program than its identity. -/
theorem Scheme.derive_congr {scheme : Scheme} {given given' seeds : Value}
    (h : programOf given = programOf given') :
    scheme.derive given seeds = scheme.derive given' seeds := by
  unfold derive findFor
  rw [h]

end Address

namespace Account

variable {t : Text} {fault : AccountFault}

theorem exists_ofHex :
    (∃ account, ofHex t = .ok account) ↔ ∃ bs, Hex.decodeExactly 20 t = .ok bs := by
  unfold ofHex EvmAddress.ofHex
  constructor
  · rintro ⟨account, h⟩
    obtain ⟨address, h, -⟩ := map_eq_ok.mp h
    obtain ⟨bs, hbs, -⟩ := bind_eq_ok.mp h
    exact ⟨bs, mapError_eq_ok.mp hbs⟩
  · rintro ⟨bs, hbs⟩
    obtain ⟨-, hlength⟩ := Hex.decodeExactly_eq_ok.mp hbs
    refine ⟨.evm ⟨bs, hlength⟩, map_eq_ok.mpr ⟨⟨bs, hlength⟩, bind_eq_ok.mpr ⟨bs, ?_, ?_⟩, rfl⟩⟩
    · exact mapError_eq_ok.mpr hbs
    · exact dif_pos hlength

theorem sort_of_ofHex (h : ofHex t = .error fault) : fault.sort = .account := by
  unfold ofHex EvmAddress.ofHex at h
  rcases bind_eq_error.mp (map_eq_error.mp h) with hread | ⟨bs, -, hbytes⟩
  · obtain ⟨_, -, rfl⟩ := mapError_eq_error.mp hread
    rfl
  · unfold EvmAddress.ofBytes at hbytes
    split at hbytes
    · cases hbytes
    · cases hbytes
      rfl

end Account

namespace Hex

/-- A text gives the identity of a program, or the address of an account, just if it has two digits for
each byte, with a mark before them or without and with blanks between bytes. So without blanks it has to
be strict. Every other text is refused for its value. -/
theorem identities_spelled_iff (t : Text) :
    ((∃ id, Address.programOf (.text t) = .ok id) ↔ IsSpaced 32 t) ∧
      (∀ fault, Address.programOf (.text t) = .error fault → fault.sort = .value) ∧
      ((∃ account, Account.ofHex t = .ok account) ↔ IsSpaced 20 t) ∧
      (∀ fault, Account.ofHex t = .error fault → fault.sort = .account) ∧
      ∀ length, IsStrict length t ↔ IsSpaced length t ∧ ∀ c ∈ t, c.isAsciiBlank = false := by
  refine ⟨?_, fun _ => Address.sort_of_programOf_text, ?_, fun _ => Account.sort_of_ofHex,
    fun _ => isStrict_iff⟩
  · simp only [Address.programOf_text]
    exact exists_decodeExactly
  · rw [Account.exists_ofHex]
    exact exists_decodeExactly

/-- Capital digits behind a capital mark. -/
theorem identities_spelled_iff_capital :
    (∃ id, Address.programOf (.text ("0X" ++ List.replicate 64 (CodePoint.ofChar 'F'))) = .ok id) ∧
      ∃ account, Account.ofHex ("0X" ++ List.replicate 40 (CodePoint.ofChar 'F')) = .ok account := by
  have hdigit (n : Nat) : ∀ c ∈ List.replicate n (CodePoint.ofChar 'F'), c.IsHexDigit := by
    intro c hc
    rw [List.eq_of_mem_replicate hc]
    exact .inr (.inl (by decide))
  have hstrict (length : Nat) :
      IsStrict length ("0X" ++ List.replicate (2 * length) (CodePoint.ofChar 'F')) :=
    ⟨"0X", by decide, _, rfl, List.length_replicate, hdigit _⟩
  obtain ⟨hprogram, -, -, -, hspaced⟩ :=
    identities_spelled_iff ("0X" ++ List.replicate 64 (CodePoint.ofChar 'F'))
  obtain ⟨-, -, haccount, -, hspaced'⟩ :=
    identities_spelled_iff ("0X" ++ List.replicate 40 (CodePoint.ofChar 'F'))
  exact ⟨hprogram.mpr ((hspaced 32).mp (hstrict 32)).1,
    haccount.mpr ((hspaced' 20).mp (hstrict 20)).1⟩

/-- A blank before the digits makes sixty-five code points an identity, and forty-one an address. -/
theorem blank_accepted :
    let zeros (n : Nat) : Text := List.replicate n (CodePoint.ofChar '0')
    ((∃ id, Address.programOf (.text (CodePoint.ofChar ' ' :: zeros 64)) = .ok id) ∧
        ¬ IsStrict 32 (CodePoint.ofChar ' ' :: zeros 64)) ∧
      (∃ account, Account.ofHex (CodePoint.ofChar ' ' :: zeros 40) = .ok account) ∧
        ¬ IsStrict 20 (CodePoint.ofChar ' ' :: zeros 40) := by
  intro zeros
  have hdigit (n : Nat) : ∀ c ∈ zeros n, c.IsHexDigit := by
    intro c hc
    rw [List.eq_of_mem_replicate hc]
    exact .inl (by decide)
  have hspaced (length : Nat) : IsSpaced length (CodePoint.ofChar ' ' :: zeros (2 * length)) := by
    obtain ⟨bs, hspells, hlength⟩ := exists_spells List.length_replicate (hdigit (2 * length))
    exact ⟨[], List.mem_cons_self, _, bs, rfl, .blank rfl hspells.spaced, hlength⟩
  have hloose (length : Nat) : ¬ IsStrict length (CodePoint.ofChar ' ' :: zeros (2 * length)) := by
    intro h
    have := (isStrict_iff.mp h).2 _ List.mem_cons_self
    cases this
  refine ⟨⟨?_, hloose 32⟩, ?_, hloose 20⟩
  · simp only [Address.programOf_text]
    exact exists_decodeExactly.mpr (hspaced 32)
  · exact Account.exists_ofHex.mpr (exists_decodeExactly.mpr (hspaced 20))

/-! ### One spelling for each -/

theorem decodeFor_eq_ok {length : Value} {t : Text} {bs : Bytes} : decodeFor length t = .ok bs ↔
    decode t = .ok bs ∧ (length = .none ∨ (Value.int bs.length).same length = true) := by
  unfold decodeFor
  split
  · simp
  · next hlength =>
    rw [decodeFitting_eq_ok]
    exact and_congr_right fun _ => (or_iff_right hlength).symm

/-- What is written for bytes is read as those bytes in any letter case, behind any mark, whether their
number is told or left open. Whatever is read as the bytes is written for them in lowercase, once its
mark and its blanks are gone. So a program has one address for the bytes of its identity and for any
spelling of them. -/
theorem spellings_of_bytes (bs : Bytes) :
    (∀ m ∈ marks, ∀ t : Text, t.lowercase = encode bs → ∀ length : Value,
      length = .none ∨ length = .int bs.length → decodeFor length (m ++ t) = .ok bs) ∧
    ∀ (t : Text) (length : Value), decodeFor length t = .ok bs →
      Text.lowercase ((unmarked t).filter fun c => !c.isAsciiBlank) = encode bs ∧
      (bs.length = 32 → ∀ (scheme : Address.Scheme) (seeds : Value),
        scheme.derive (.text t) seeds = scheme.derive (.bytes bs) seeds) := by
  constructor
  · intro m hm t ht length hlength
    refine decodeFor_eq_ok.mpr ⟨decode_eq_ok.mpr ⟨m, hm, t, rfl, ?_⟩, ?_⟩
    · exact (spells_of_lowercase ht).spaced
    · rcases hlength with rfl | rfl
      · exact .inl rfl
      · exact .inr ((Value.same_int _ _).trans (decide_eq_true rfl))
  · intro t length h
    obtain ⟨hdecode, -⟩ := decodeFor_eq_ok.mp h
    refine ⟨(decodeUnmarked_eq_ok.mp hdecode).spells.lowercase, fun hsize scheme seeds => ?_⟩
    have hprogram : Address.programOf (.text t) = .ok bs :=
      Address.programOf_text.mpr (decodeExactly_eq_ok.mpr ⟨hdecode, hsize⟩)
    exact Address.Scheme.derive_congr (hprogram.trans (Address.programOf_bytes hsize).symm)

/-- Two spellings of two bytes, and a third with blanks. -/
theorem spellings_of_bytes_mixed :
    decodeFor .none ("0X" ++ ("aB01" : Text)) = .ok [0xAB, 0x01] ∧
      decodeFor (.int 2) (mark ++ ("AB01" : Text)) = .ok [0xAB, 0x01] ∧
      Text.lowercase ((unmarked "0xAb\t01 ").filter fun c => !c.isAsciiBlank) = "ab01" := by
  obtain ⟨hread, hwritten⟩ := spellings_of_bytes [0xAB, 0x01]
  refine ⟨?_, ?_, ?_⟩
  · exact hread _ (by decide) _ (by decide +kernel) _ (.inl rfl)
  · exact hread _ (by decide) _ (by decide +kernel) _ (.inr rfl)
  · exact (hwritten _ .none (by decide +kernel)).1

end Hex

end LedgerWire
