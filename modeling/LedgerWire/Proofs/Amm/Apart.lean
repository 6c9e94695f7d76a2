import LedgerWire.Proofs.Amm.Owners
import LedgerWire.Proofs.Schema.Locality

/-!
# Calls of the program are not read as calls of the contract

The methods of both builds have the same names, and nothing in an envelope tells which build it is for.
What tells them apart is the length of the arguments: the keys of a call of the program take more bytes
than all the arguments of the contract, so a reader of those stops before the end. The tokens of a new
pool are as long as they are, so `add_pool` is none of these methods.
-/

namespace LedgerWire

open Schema

/-! ### Readers that stop before the end -/

namespace Schema

/-- A reader of `s` has a value before the bytes are all read. -/
def StopsShort (s : Schema) (bs : Bytes) : Prop :=
  ∃ count, 0 < count ∧ s.deserialize bs = .error (.trailing s.describe count)

variable {s : Schema} {v : Value} {front back bs : Bytes}

theorem stopsShort_of_layout (hs : s.all isSound) (he : s.all isExact)
    (h : Layout .written s v front) (hback : 0 < back.length) : StopsShort s (front ++ back) := by
  have hne : back ≠ [] := List.ne_nil_of_length_pos hback
  exact ⟨back.length, hback, deserialize_append (deserialize_of_layout hs he h) hne⟩

/-- Any bytes of the right length are numbers, one after the other. -/
theorem layoutFields_numbers (names : List Text) (h : front.length = 16 * names.length) :
    ∃ entries, LayoutFields .written (names.map fun name => (name, u128)) entries front := by
  induction names generalizing front with
  | nil =>
    obtain rfl := List.length_eq_zero_iff.mp h
    exact ⟨[], .nil⟩
  | cons name names ih =>
    rw [List.length_cons] at h
    have hfirst : (front.take 16).length = Width.w128.bytes := by
      rw [List.length_take]
      exact Nat.min_eq_left (by omega)
    have hrest : (front.drop 16).length = 16 * names.length := by
      rw [List.length_drop]
      omega
    obtain ⟨entries, hentries⟩ := ih hrest
    rw [← List.take_append_drop 16 front]
    exact ⟨_, .cons (layout_of_raw hfirst) hentries⟩

theorem stopsShort_numbers (names : List Text)
    (hs : (record (names.map fun name => (name, u128))).all isSound)
    (he : (record (names.map fun name => (name, u128))).all isExact)
    (h : 16 * names.length < bs.length) :
    StopsShort (.record (names.map fun name => (name, u128))) bs := by
  have hfront : (bs.take (16 * names.length)).length = 16 * names.length := by
    rw [List.length_take]
    omega
  have hback : 0 < (bs.drop (16 * names.length)).length := by
    rw [List.length_drop]
    omega
  obtain ⟨entries, hentries⟩ := layoutFields_numbers names hfront
  rw [← List.take_append_drop (16 * names.length) bs]
  exact stopsShort_of_layout hs he (.record hentries) hback

/-- A count is read as the length of a byte string. -/
theorem stopsShort_bytes {count : Nat} (hcount : count ≤ maxLength) (h : count < bs.length) :
    StopsShort .bytes (Bytes.ofNatLE lengthSize count ++ bs) := by
  have hfront : (bs.take count).length = count := by
    rw [List.length_take]
    omega
  have hback : 0 < (bs.drop count).length := by
    rw [List.length_drop]
    omega
  have hlayout := Layout.bytes (r := .written) (hfront.le.trans hcount)
  rw [hfront] at hlayout
  have hstop := stopsShort_of_layout (by decide) (by decide) hlayout hback
  rwa [List.append_assoc, List.take_append_drop] at hstop

end Schema

/-! ### Calls of the program -/

namespace ProgramCall

variable {c : Config} {call : ProgramCall} {program owner : Value} {given : Spending}
  {key data : Bytes}

theorem checkKey_eq_ok : checkKey owner = .ok key ↔ owner = .bytes key ∧ key.length = keySize := by
  constructor
  · intro h
    cases owner with
    | bytes bs =>
      obtain ⟨hlen, rfl⟩ := ite_eq_ok.mp h
      exact ⟨rfl, hlen⟩
    | _ => cases h
  · rintro ⟨rfl, hlen⟩
    exact if_pos hlen

/-- What is read from the envelope of a call that was sent. -/
theorem decode_of_encode (h : call.encode c program owner given = .ok data) :
    ∃ keys code gas deposit, keys.length = (call.touched owner).length + 1 ∧
      (∀ key ∈ keys, key.length = 32) ∧
      Envelope.decode (.bytes data) =
        .ok ⟨.text call.method, passedBytes keys code, gas, deposit⟩ := by
  obtain ⟨context, hcontext, hdata⟩ := bind_eq_ok.mp h
  obtain ⟨derived, hderived, hcontext⟩ := bind_eq_ok.mp hcontext
  obtain ⟨key, hkey, hcontext⟩ := bind_eq_ok.mp hcontext
  obtain ⟨code, -, hcontext⟩ := bind_eq_ok.mp hcontext
  cases hcontext
  obtain ⟨rfl, hlen⟩ := checkKey_eq_ok.mp (mapError_eq_ok.mp hkey)
  have hderived := derives_of_addresses hderived
  have hkeys : ∀ k ∈ key :: derived, k.length = 32 :=
    List.forall_mem_cons.mpr ⟨hlen, length_of_derives hderived⟩
  obtain ⟨body, gas, deposit, hbody, hdecode⟩ := Config.decode_of_encodeCall rfl hdata
  obtain rfl := (writes_passed hkeys code).only body hbody
  refine ⟨key :: derived, code, gas, deposit, ?_, hkeys, hdecode⟩
  rw [List.length_cons, hderived.length_eq]

/-- The arguments of the contract are all read before the keys are. -/
theorem stopsShort_passed {keys : List Bytes} (hmethod : call.method ≠ "add_pool")
    (hlen : keys.length = (call.touched owner).length + 1) (hkeys : ∀ key ∈ keys, key.length = 32)
    (code : Bytes) :
    ∃ s, Catalog.argsOf (.text call.method) = .ok s ∧ StopsShort s (passedBytes keys code) := by
  have hsize := length_passedBytes hkeys code
  cases call with
  | init =>
    have hlen : keys.length = 2 := hlen
    have hflat := length_keys hkeys
    refine ⟨Catalog.initArgs, rfl, ?_⟩
    rw [passedBytes, List.append_assoc]
    refine stopsShort_bytes (by rw [hlen]; decide) ?_
    rw [List.length_append, hflat]
    omega
  | addPool nextPoolId token0 token1 => exact absurd rfl hmethod
  | addLiquidity poolId amount0 amount1 =>
    have hlen : keys.length = 3 := hlen
    have hshort : 16 * 3 < (passedBytes keys code).length := by omega
    exact ⟨Catalog.addLiquidityArgs, rfl,
      stopsShort_numbers ["pool_id", "amount0", "amount1"] (by decide) (by decide) hshort⟩
  | removeLiquidity poolId =>
    have hlen : keys.length = 3 := hlen
    have hshort : 16 * 1 < (passedBytes keys code).length := by omega
    exact ⟨Catalog.removeLiquidityArgs, rfl,
      stopsShort_numbers ["pool_id"] (by decide) (by decide) hshort⟩
  | swap poolId amount0In amount1In =>
    have hlen : keys.length = 2 := hlen
    have hshort : 16 * 3 < (passedBytes keys code).length := by omega
    exact ⟨Catalog.swapArgs, rfl,
      stopsShort_numbers ["pool_id", "amount0_in", "amount1_in"] (by decide) (by decide) hshort⟩

/-- A call of the program that adds no pool is read from its envelope, but its arguments are not read by
the schema that the contract has for the method: bytes are left over. -/
theorem never_misread (h : call.encode c program owner given = .ok data)
    (hmethod : call.method ≠ "add_pool") :
    ∃ e s count, Envelope.decode (.bytes data) = .ok e ∧ e.method = .text call.method ∧
      Catalog.argsOf (.text call.method) = .ok s ∧ 0 < count ∧
      e.decodeArgs (.value .none) = .error (.decode (.trailing s.describe count)) := by
  obtain ⟨keys, code, gas, deposit, hlen, hkeys, hdecode⟩ := decode_of_encode h
  obtain ⟨s, hs, count, hcount, hstop⟩ := stopsShort_passed hmethod hlen hkeys code
  refine ⟨_, s, count, hdecode, rfl, hs, hcount, ?_⟩
  rw [Envelope.decodeArgs_eq (Envelope.argsSchema_of_argsOf hs), hstop]
  rfl

/-- Shares are taken out of the first pool of the program whose identity is all zeros. -/
theorem never_misread_zeros : ∃ key data e s count,
    (removeLiquidity (.int 0)).encode Config.default (.bytes (List.replicate 32 0)) (.bytes key)
      ⟨.int 0, .int 0⟩ = .ok data ∧
    Envelope.decode (.bytes data) = .ok e ∧ e.method = .text "remove_liquidity" ∧
    Catalog.argsOf (.text "remove_liquidity") = .ok s ∧ 0 < count ∧
    e.decodeArgs (.value .none) = .error (.decode (.trailing s.describe count)) := by
  obtain ⟨key, data, -, hdata⟩ := goesThrough_zeros
  have hmethod : method (.removeLiquidity (.int 0)) ≠ "add_pool" := by decide
  obtain ⟨e, s, count, hread⟩ := never_misread hdata hmethod
  exact ⟨key, data, e, s, count, hdata, hread⟩

end ProgramCall

end LedgerWire
