import LedgerWire.Proofs.Account.Address
import LedgerWire.Proofs.Account.Name
import LedgerWire.Proofs.Schema.Limits
import LedgerWire.Proofs.Text.Hex
import Mathlib.Data.List.Dedup

/-!
# Identities of accounts

Accounts are the same as values, as members of a set and in the bytes that are written for them. Every
account is written, and the bytes it is written in are the only ones that it is read from. What an
address is displayed as spells it, in either letter case and behind any mark.
-/

namespace LedgerWire

namespace Account

open Schema

variable {a b : Account} {data : Bytes}

/-! ### Sets of accounts -/

theorem same_iff : a.same b ↔ a = b := by
  cases a with
  | named name =>
    cases b with
    | named name' =>
      obtain ⟨text, _⟩ := name
      obtain ⟨text', _⟩ := name'
      simp [same]
    | evm address' => exact iff_of_false nofun nofun
  | evm address =>
    cases b with
    | named name' => exact iff_of_false nofun nofun
    | evm address' =>
      obtain ⟨bytes, _⟩ := address
      obtain ⟨bytes', _⟩ := address'
      simp [same]

/-- Equal accounts have one digest, so that the digest does not count. -/
theorem insert_eq (digest : Value → Int) (held : List Account) (a : Account) :
    insert digest held a = if a ∈ held then held else held ++ [a] := by
  have hfound : (held.any fun b => digest b.key == digest a.key && b.same a) = true ↔ a ∈ held := by
    simp only [List.any_eq_true, Bool.and_eq_true, beq_iff_eq, same_iff]
    constructor
    · rintro ⟨b, hb, -, rfl⟩
      exact hb
    · intro ha
      exact ⟨a, ha, rfl, rfl⟩
  simp only [insert, hfound]

theorem mem_insert (digest : Value → Int) (held : List Account) :
    b ∈ insert digest held a ↔ b ∈ held ∨ b = a := by
  rw [insert_eq]
  by_cases ha : a ∈ held
  · rw [if_pos ha]
    constructor
    · exact .inl
    · rintro (hb | rfl)
      · exact hb
      · exact ha
  · rw [if_neg ha, List.mem_append, List.mem_singleton]

theorem nodup_insert (digest : Value → Int) {held : List Account} (h : held.Nodup) :
    (insert digest held a).Nodup := by
  rw [insert_eq]
  by_cases ha : a ∈ held
  · rwa [if_pos ha]
  · rw [if_neg ha]
    exact List.nodup_append_comm.mp (List.nodup_cons.mpr ⟨ha, h⟩)

/-- A set into which accounts are put holds each of them once, with what it held before. -/
theorem foldl_insert (digest : Value → Int) (accounts : List Account) {held : List Account}
    (h : held.Nodup) : (accounts.foldl (insert digest) held).Nodup ∧
      ∀ b, b ∈ accounts.foldl (insert digest) held ↔ b ∈ held ∨ b ∈ accounts := by
  induction accounts generalizing held with
  | nil => exact ⟨h, fun b => (or_iff_left List.not_mem_nil).symm⟩
  | cons a accounts ih =>
    obtain ⟨hnodup, hmem⟩ := ih (nodup_insert digest h)
    refine ⟨hnodup, fun b => ?_⟩
    rw [List.foldl_cons, hmem, mem_insert, List.mem_cons, or_assoc]

theorem toSet_perm (digest : Value → Int) (accounts : List Account) :
    (toSet digest accounts).Perm accounts.dedup := by
  obtain ⟨hnodup, hmem⟩ := foldl_insert digest accounts List.nodup_nil
  refine (List.perm_ext_iff_of_nodup hnodup accounts.nodup_dedup).mpr fun a => ?_
  rw [List.mem_dedup, ← or_iff_right (b := a ∈ accounts) List.not_mem_nil]
  exact hmem a

theorem length_toSet_pair (digest : Value → Int) (a b : Account) :
    (toSet digest [a, b]).length = 1 ↔ a = b := by
  rw [(toSet_perm digest [a, b]).length_eq]
  by_cases h : a = b
  · subst h
    exact iff_of_true (by simp) rfl
  · exact iff_of_false (by simp [h]) h

/-! ### Accounts on the wire -/

theorem utf8_of_admits {t : Text} (h : AccountName.Admits t) :
    Utf8.encode t = .ok (t.flatMap Utf8.encodeOne) := by
  obtain ⟨-, -, hsymbols⟩ := h
  refine Utf8.encode_eq_ok.mpr ⟨fun c hc => ?_, rfl⟩
  rcases hsymbols c hc with hname | rfl
  · unfold CodePoint.IsNameSymbol at hname
    unfold CodePoint.isSurrogate
    rw [Bool.and_eq_false_iff, decide_eq_false_iff_not]
    omega
  · rfl

/-- Every account fits behind a length. -/
theorem exists_writes (a : Account) :
    ∃ body, Writes Catalog.accountId a.toValue body ∧ body.length ≤ maxLength := by
  cases a with
  | named name =>
    have hadmits := AccountName.fault?_eq_none.mp name.accepted
    refine ⟨_, writes_union accountId_nodes.1 0 rfl (writes_text (utf8_of_admits hadmits)), ?_⟩
    have hutf8 := Utf8.length_flatMap_le name.text
    have hshort : name.text.length ≤ 64 := hadmits.2.1
    rw [List.length_cons, List.length_append, Bytes.length_ofNatLE]
    exact Nat.le_trans (show _ ≤ 261 by unfold lengthSize; omega) (by decide)
  | evm address =>
    obtain ⟨bytes, hlength⟩ := address
    have hkey : Writes (.fixedBytes 20) (.bytes bytes) bytes := hlength ▸ writes_key bytes
    refine ⟨_, writes_union accountId_nodes.1 1 rfl hkey, ?_⟩
    rw [List.length_cons, hlength]
    decide

theorem exists_encode (a : Account) : ∃ data, a.encode = .ok data := by
  obtain ⟨body, hwrites, hlength⟩ := exists_writes a
  exact ⟨body, mapError_eq_ok.mpr (hwrites.encode accountId_nodes.1 hlength)⟩

/-- An account is read from just the bytes that are written for it. -/
theorem deserialize_toValue :
    Catalog.accountId.deserialize data = .ok a.toValue ↔ a.encode = .ok data := by
  obtain ⟨hsound, hexact, hflat⟩ := accountId_nodes
  have hencode : a.encode = .ok data ↔ Catalog.accountId.encode a.toValue = .ok data :=
    mapError_eq_ok
  rw [hencode]
  constructor
  · intro h
    have hwritten := reencodes_of_flat hsound hflat _ _ _ (deserialize_eq_ok.mp h)
    rwa [List.take_length] at hwritten
  · intro h
    obtain ⟨body, hwrites, hlength⟩ := exists_writes a
    obtain rfl := hwrites.only data h
    exact deserialize_of_layout hsound hexact (hwrites.layout hlength)

theorem bytes_of_layout {r : Rules} {length : Nat} {v : Value}
    (h : Layout r (.fixedBytes length) v data) : v = .bytes data := by
  cases h
  rfl

/-- What is laid out as an account denotes the account of which it is the value. -/
theorem ofValue_of_layout {r : Rules} {v : Value} (h : Layout r Catalog.accountId v data) :
    ofValue v = .ok a ↔ a.toValue = v := by
  rcases h with - | - | - | - | - | - | - | - | - | - | @⟨_, index, _, _, _, _, hvariant, hpart⟩
  rcases index with _ | _ | index
  · cases hvariant
    rcases hpart with - | - | @⟨t, -, -⟩
    show ofName (.text t) = .ok a ↔ a.toValue = nameEntry t
    rw [ofName_eq_ok]
    constructor
    · rintro ⟨name, rfl, rfl⟩
      rfl
    · intro h
      cases a with
      | named name =>
        cases h
        exact ⟨name, rfl, rfl⟩
      | evm address => cases h
  · cases hvariant
    obtain rfl := bytes_of_layout hpart
    show ofAddress (.bytes _) = .ok a ↔ a.toValue = addressEntry (.bytes _)
    rw [ofAddress_eq_ok]
    constructor
    · rintro ⟨address, ⟨⟩, rfl⟩
      rfl
    · intro h
      cases a with
      | named name => cases h
      | evm address =>
        cases h
        exact ⟨address, rfl, rfl⟩
  · cases hvariant

theorem decode_eq_ok {v : Value} :
    decode v = .ok a ↔ ∃ data, v = .bytes data ∧ a.encode = .ok data := by
  cases v with
  | bytes data =>
    show ((Catalog.accountId.deserialize data).mapError Error.decode >>= fun v =>
      (ofValue v).mapError Error.account) = .ok a ↔ _
    simp only [bind_eq_ok, mapError_eq_ok, ← deserialize_toValue]
    constructor
    · rintro ⟨v, hread, hvalue⟩
      rw [← (ofValue_of_layout (layout_of_deserialize hread)).mp hvalue] at hread
      exact ⟨data, rfl, hread⟩
    · rintro ⟨_, ⟨⟩, hread⟩
      exact ⟨_, hread, (ofValue_of_layout (layout_of_deserialize hread)).mpr rfl⟩
  | _ => exact iff_of_false (by rintro ⟨⟩) (by simp)

/-- No two accounts are written in the same bytes. -/
theorem encode_inj (ha : a.encode = .ok data) (hb : b.encode = .ok data) : a = b := by
  have hread : decode (.bytes data) = .ok a := decode_eq_ok.mpr ⟨data, rfl, ha⟩
  rw [decode_eq_ok.mpr ⟨data, rfl, hb⟩] at hread
  cases hread
  rfl

/-! ### Addresses in hexadecimal -/

/-- The letter case of digits does not count, nor whether a mark is before them. -/
theorem ofHex_eq_ok {address : EvmAddress} {m t : Text} (hm : m ∈ Hex.marks)
    (h : t.lowercase = (evm address).display) : ofHex (m ++ t) = .ok (.evm address) := by
  obtain ⟨bytes, hlength⟩ := address
  have hdecode := (Hex.spells_of_lowercase h).decodeExactly hm
  rw [hlength] at hdecode
  unfold ofHex EvmAddress.ofHex
  rw [map_eq_ok]
  refine ⟨⟨bytes, hlength⟩, bind_eq_ok.mpr ⟨bytes, mapError_eq_ok.mpr hdecode, ?_⟩, rfl⟩
  exact ofBytes_eq_ok.mpr rfl

/-! ### One identity -/

/-- Two accounts are the same just if they are equal, if the same bytes are written for them, and if a
set of them has one member, whatever digest it takes of them. An account is written, and is read from
just what is written for it. An address is that of every text in hexadecimal of which its display is the
lowercase form, behind any mark. -/
theorem identities_agree (digest : Value → Int) (a b : Account) :
    (a.same b ↔ a = b) ∧
      (∃ x y, a.encode = .ok x ∧ b.encode = .ok y ∧ (a.same b ↔ x = y)) ∧
      (a.same b ↔ (toSet digest [a, b]).length = 1) ∧
      (∀ v, decode v = .ok a ↔ ∃ data, v = .bytes data ∧ a.encode = .ok data) ∧
      ∀ address, a = .evm address → ∀ m ∈ Hex.marks, ∀ t : Text, t.lowercase = a.display →
        ofHex (m ++ t) = .ok a := by
  refine ⟨same_iff, ?_, ?_, fun v => decode_eq_ok, ?_⟩
  · obtain ⟨x, hx⟩ := exists_encode a
    obtain ⟨y, hy⟩ := exists_encode b
    refine ⟨x, y, hx, hy, same_iff.trans ⟨?_, ?_⟩⟩
    · rintro rfl
      exact Except.ok.inj (hx.symm.trans hy)
    · rintro rfl
      exact encode_inj hx hy
  · rw [same_iff, length_toSet_pair]
  · rintro address rfl m hm t h
    exact ofHex_eq_ok hm h

/-- Digits in both letter cases behind a capital mark, and a set that cannot tell accounts by their
digests. -/
theorem identities_agree_mixed_case : ∃ address : EvmAddress,
    (Account.evm address).display = "abababababababababababababababababababab" ∧
      ofHex ("0X" ++ ("ABabAbaBABabAbaBABabAbaBABabAbaBABabAbaB" : Text)) = .ok (.evm address) ∧
      (toSet (fun _ => 0) [.evm address, .evm ⟨List.replicate 20 0, rfl⟩]).length ≠ 1 := by
  obtain ⟨hsame, -, hset, -, hhex⟩ := identities_agree (fun _ => 0)
    (.evm ⟨List.replicate 20 0xAB, rfl⟩) (.evm ⟨List.replicate 20 0, rfl⟩)
  refine ⟨⟨List.replicate 20 0xAB, rfl⟩, rfl, ?_, ?_⟩
  · exact hhex _ rfl _ (by decide) _ (by decide +kernel)
  · rw [Ne, ← hset, hsame]
    decide

end Account

end LedgerWire
