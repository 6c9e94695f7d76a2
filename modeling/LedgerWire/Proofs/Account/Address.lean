import LedgerWire.Amm.Contract
import LedgerWire.Proofs.Schema.Acceptance
import LedgerWire.Proofs.Value.Cast

/-!
# Addresses from values

An address is made of the cast of a value, while the schema of accounts takes the value as it is. Both
take byte strings and lists of bytes, and end in the same bytes. The cast makes an address of two more
sorts of values, which the schema refuses: they are `Invented`.
-/

namespace LedgerWire

namespace Account

open Schema Value

variable {v : Value} {body data : Bytes} {account : Account}

/-- The value of an account that carries an address. -/
def addressEntry (v : Value) : Value := .map [(.text "evm", v)]

theorem ofBytes_eq_ok {address : EvmAddress} :
    EvmAddress.ofBytes body = .ok address ↔ address.bytes = body := by
  obtain ⟨bytes, hbytes⟩ := address
  unfold EvmAddress.ofBytes
  split
  · next h =>
    rw [Except.ok.injEq, EvmAddress.mk.injEq]
    exact eq_comm
  · next h =>
    refine iff_of_false nofun ?_
    rintro rfl
    exact h hbytes

/-- The address of a value is its cast, as it is. -/
theorem ofAddress_eq_ok : ofAddress v = .ok account ↔
    ∃ address : EvmAddress, v.castBytes = .ok address.bytes ∧ account = .evm address := by
  unfold ofAddress EvmAddress.ofValue
  rw [map_eq_ok]
  constructor
  · rintro ⟨address, h, rfl⟩
    obtain ⟨body, hcast, hbytes⟩ := bind_eq_ok.mp h
    obtain rfl := ofBytes_eq_ok.mp hbytes
    exact ⟨address, mapError_eq_ok.mp hcast, rfl⟩
  · rintro ⟨address, hcast, rfl⟩
    exact ⟨address, bind_eq_ok.mpr ⟨_, mapError_eq_ok.mpr hcast, ofBytes_eq_ok.mpr rfl⟩, rfl⟩

theorem exists_ofAddress : (∃ account, ofAddress v = .ok account) ↔
    ∃ body, v.castBytes = .ok body ∧ body.length = 20 := by
  simp only [ofAddress_eq_ok]
  constructor
  · rintro ⟨_, address, hcast, -⟩
    exact ⟨address.bytes, hcast, address.length_eq⟩
  · rintro ⟨body, hcast, hlength⟩
    exact ⟨_, ⟨body, hlength⟩, hcast, rfl⟩

/-! ### What the schema takes -/

theorem accountId_nodes : Catalog.accountId.all isSound ∧ Catalog.accountId.all isExact ∧
    Catalog.accountId.all isFlat :=
  Catalog.nodes_of_get (rfl : Catalog.get "account_id" = .ok Catalog.accountId)

theorem encode_addressEntry : Catalog.accountId.encode (addressEntry v) = .ok data ↔
    ∃ body, Spells v body ∧ body.length = 20 ∧ 1 :: body = data := by
  unfold addressEntry Catalog.accountId
  rw [encode_union (nodup_of_union accountId_nodes.1)]
  constructor
  · rintro ⟨index, name, s, payload, body, hvariant, hv, hbody, rfl⟩
    cases hv
    rcases index with _ | _ | index
    · cases hvariant
    · cases hvariant
      obtain ⟨hspells, hlength⟩ := encode_fixedBytes.mp hbody
      exact ⟨body, hspells, hlength, rfl⟩
    · cases hvariant
  · rintro ⟨body, hspells, hlength, rfl⟩
    exact ⟨1, _, _, v, body, rfl, rfl, encode_fixedBytes.mpr ⟨hspells, hlength⟩, rfl⟩

theorem accepts_addressEntry : Accepts Catalog.accountId (addressEntry v) ↔ v.HasBytes 20 := by
  rw [hasBytes_iff]
  constructor
  · rintro ⟨data, h⟩
    obtain ⟨body, hspells, hlength, -⟩ := encode_addressEntry.mp h
    exact ⟨body, hspells, hlength⟩
  · rintro ⟨body, hspells, hlength⟩
    exact ⟨_, encode_addressEntry.mpr ⟨body, hspells, hlength, rfl⟩⟩

/-! ### Values without bytes -/

/-- The value holds no bytes, yet its cast is as long as an address. -/
inductive Invented : Value → Prop
  | number : Invented (.int 20)
  | keys {entries : Entries} (length : entries.length = 20)
    (each : ∀ key ∈ entries.map (·.1), IsByte key) : Invented (.map entries)

theorem invented_iff : Invented v ↔ ∃ body, Loose v body ∧ body.length = 20 := by
  constructor
  · intro h
    cases h with
    | number => exact ⟨_, .int (n := 20) (by decide), rfl⟩
    | @keys entries hlength each =>
      obtain ⟨body, hkeys, hbody⟩ := exists_toByteItems.mpr ⟨rfl, each⟩
      rw [List.length_map, hlength] at hbody
      exact ⟨body, .map hkeys, hbody⟩
  · rintro ⟨body, hloose, hlength⟩
    cases hloose with
    | bool b => cases b <;> cases hlength
    | int h =>
      rw [List.length_replicate] at hlength
      subst hlength
      exact .number
    | map hkeys =>
      obtain ⟨hkeys, each⟩ := exists_toByteItems.mp ⟨body, hkeys, hlength⟩
      rw [List.length_map] at hkeys
      exact .keys hkeys each

theorem Invented.not_hasBytes (h : Invented v) : ¬ v.HasBytes 20 := by
  obtain ⟨body, hloose, -⟩ := invented_iff.mp h
  intro hbytes
  obtain ⟨body', hspells, -⟩ := hasBytes_iff.mp hbytes
  exact hloose.not_spells hspells

theorem exists_ofAddress_iff :
    (∃ account, ofAddress v = .ok account) ↔ v.HasBytes 20 ∨ Invented v := by
  rw [exists_ofAddress, hasBytes_iff, invented_iff]
  simp only [castBytes_eq_ok, or_and_right, exists_or]

/-! ### Both ways of making an address -/

/-- Whatever the schema takes as an address, twenty bytes in a byte string or a list, is made into the
account that is written in the same bytes. The converse holds just for the values that are not invented. -/
theorem ofAddress_agrees_iff (v : Value) :
    (Accepts Catalog.accountId (addressEntry v) ↔ v.HasBytes 20) ∧
      (∀ data, Catalog.accountId.encode (addressEntry v) = .ok data →
        ∃ body account, Spells v body ∧ data = 1 :: body ∧ ofAddress v = .ok account ∧
          account.encode = .ok data) ∧
      (((∃ account, ofAddress v = .ok account) ↔ Accepts Catalog.accountId (addressEntry v)) ↔
        ¬ Invented v) := by
  refine ⟨accepts_addressEntry, ?_, ?_⟩
  · intro data h
    obtain ⟨body, hspells, hlength, rfl⟩ := encode_addressEntry.mp h
    have haccount : ofAddress v = .ok (.evm ⟨body, hlength⟩) :=
      ofAddress_eq_ok.mpr ⟨_, castBytes_eq_ok.mpr (.inl hspells), rfl⟩
    have hencode : encode (.evm ⟨body, hlength⟩) = .ok (1 :: body) :=
      mapError_eq_ok.mpr (encode_addressEntry.mpr ⟨body, .inl rfl, hlength, rfl⟩)
    exact ⟨body, _, hspells, rfl, haccount, hencode⟩
  · rw [exists_ofAddress_iff, accepts_addressEntry]
    constructor
    · intro h hinvented
      exact hinvented.not_hasBytes (h.mp (.inr hinvented))
    · intro h
      exact or_iff_left h

/-- A list of nineteen bytes and a truth value. -/
theorem ofAddress_agrees_iff_list : ∃ account,
    ofAddress (.list (.bool true :: List.replicate 19 (.int 255))) = .ok account ∧
      account.encode = .ok (1 :: 1 :: List.replicate 19 255) := by
  have hdata : Catalog.accountId.encode
      (addressEntry (.list (.bool true :: List.replicate 19 (.int 255)))) =
        .ok (1 :: 1 :: List.replicate 19 255) := rfl
  obtain ⟨-, hmade, -⟩ := ofAddress_agrees_iff (.list (.bool true :: List.replicate 19 (.int 255)))
  obtain ⟨-, account, -, -, haccount, hencode⟩ := hmade _ hdata
  exact ⟨account, haccount, hencode⟩

/-- The schema refuses the number twenty as an address, and the cast makes twenty zeros of it. -/
theorem number_becomes_address :
    (∃ account, ofAddress (.int 20) = .ok account ∧
      account.encode = .ok (1 :: List.replicate 20 0)) ∧
      ¬ Accepts Catalog.accountId (addressEntry (.int 20)) := by
  refine ⟨⟨_, rfl, rfl⟩, ?_⟩
  rw [accepts_addressEntry]
  exact Invented.number.not_hasBytes

end Account

end LedgerWire
