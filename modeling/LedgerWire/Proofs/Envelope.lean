import LedgerWire.Envelope
import LedgerWire.Proofs.Schema.Canonical

/-!
# Calls come back from their envelopes

The bytes of an envelope are its four parts, one after the other. A call is encoded in two passes, the
arguments by their schema and then the envelope around them, and comes back in two passes. What is in
the way is the size of a length: method and encoded arguments have to fit behind one.
-/

namespace LedgerWire

namespace Envelope

open Schema

/-! ### The bytes of an envelope -/

/-- The four parts on the wire; the method is spelled in UTF-8. -/
def wire (name args : Bytes) (gas deposit : Nat) : Bytes :=
  Bytes.ofNatLE lengthSize name.length ++ name ++ (Bytes.ofNatLE lengthSize args.length ++ args ++
    (Bytes.ofIntLE Width.w64.bytes gas ++ (Bytes.ofIntLE Width.w128.bytes deposit ++ [])))

variable {method : Text} {name args data : Bytes} {gas deposit : Nat}

theorem range_gas (h : gas < 2 ^ 64) :
    Width.w64.minInt false ≤ gas ∧ (gas : Int) ≤ Width.w64.maxInt false :=
  (Width.natural_range .w64 gas).mpr ⟨gas, rfl, h⟩

theorem range_deposit (h : deposit < 2 ^ 128) :
    Width.w128.minInt false ≤ deposit ∧ (deposit : Int) ≤ Width.w128.maxInt false :=
  (Width.natural_range .w128 deposit).mpr ⟨deposit, rfl, h⟩

theorem layout_wire {r : Rules} (hname : Utf8.encode method = .ok name)
    (hlen : name.length ≤ maxLength) (hargs : args.length ≤ maxLength) (hgas : gas < 2 ^ 64)
    (hdeposit : deposit < 2 ^ 128) :
    Layout r Catalog.transaction (record (.text method) (.bytes args) (.int gas) (.int deposit))
      (wire name args gas deposit) :=
  .record (.cons (.text hname hlen) (.cons (.bytes hargs)
    (.cons (.integer (range_gas hgas)) (.cons (.integer (range_deposit hdeposit)) .nil))))

theorem transaction_nodes :
    Catalog.transaction.all isSound ∧ Catalog.transaction.all isExact ∧
      Catalog.transaction.all isFlat :=
  Catalog.nodes_of_get (rfl : Catalog.get "transaction" = .ok Catalog.transaction)

/-- An envelope is written if each of its parts is. -/
theorem build_parts {method args gas deposit : Value} :
    build method args gas deposit = .ok data ↔
      ∃ part₁ part₂ part₃ part₄, encode .text method = .ok part₁ ∧ encode .bytes args = .ok part₂ ∧
        encode u64 gas = .ok part₃ ∧ encode u128 deposit = .ok part₄ ∧
        part₁ ++ (part₂ ++ (part₃ ++ (part₄ ++ []))) = data := by
  rw [build, mapError_eq_ok]
  constructor
  · intro h
    obtain ⟨-, -, hfields⟩ := bind_eq_ok.mp h
    obtain ⟨part₁, h₁, rest₁, hrest₁, rfl⟩ := (encodeFields_cons rfl).mp hfields
    obtain ⟨part₂, h₂, rest₂, hrest₂, rfl⟩ := (encodeFields_cons rfl).mp hrest₁
    obtain ⟨part₃, h₃, rest₃, hrest₃, rfl⟩ := (encodeFields_cons rfl).mp hrest₂
    obtain ⟨part₄, h₄, rest₄, hrest₄, rfl⟩ := (encodeFields_cons rfl).mp hrest₃
    cases hrest₄
    exact ⟨part₁, part₂, part₃, part₄, h₁, h₂, h₃, h₄, rfl⟩
  · rintro ⟨part₁, part₂, part₃, part₄, h₁, h₂, h₃, h₄, rfl⟩
    have hnames := nodup_of_record transaction_nodes.1
    refine bind_eq_ok.mpr ⟨(), (checkFields_eq_ok hnames).mpr (.refl _), ?_⟩
    refine (encodeFields_cons rfl).mpr ⟨part₁, h₁, _, ?_, rfl⟩
    refine (encodeFields_cons rfl).mpr ⟨part₂, h₂, _, ?_, rfl⟩
    refine (encodeFields_cons rfl).mpr ⟨part₃, h₃, _, ?_, rfl⟩
    exact (encodeFields_cons rfl).mpr ⟨part₄, h₄, _, rfl, rfl⟩

/-- An envelope is written if its texts and byte strings fit behind their lengths. -/
theorem build_eq_ok (hgas : gas < 2 ^ 64) (hdeposit : deposit < 2 ^ 128) :
    build (.text method) (.bytes args) (.int gas) (.int deposit) = .ok data ↔
      ∃ name, Utf8.encode method = .ok name ∧ name.length ≤ maxLength ∧ args.length ≤ maxLength ∧
        wire name args gas deposit = data := by
  rw [build_parts]
  constructor
  · rintro ⟨part₁, part₂, part₃, part₄, h₁, h₂, h₃, h₄, rfl⟩
    obtain ⟨_, name, ⟨⟩, hname, hlen, rfl⟩ := encode_text.mp h₁
    obtain ⟨body, hbody, hargs, rfl⟩ := encode_bytes.mp h₂
    obtain ⟨_, ⟨⟩, -, rfl⟩ := encode_integer.mp h₃
    obtain ⟨_, ⟨⟩, -, rfl⟩ := encode_integer.mp h₄
    rcases hbody with ⟨⟨⟩⟩ | ⟨_, ⟨⟩, -⟩
    exact ⟨name, hname, hlen, hargs, rfl⟩
  · rintro ⟨name, hname, hlen, hargs, rfl⟩
    exact ⟨_, _, _, _, encode_text.mpr ⟨method, name, rfl, hname, hlen, rfl⟩,
      encode_bytes.mpr ⟨args, .inl rfl, hargs, rfl⟩,
      encode_integer.mpr ⟨gas, rfl, range_gas hgas, rfl⟩,
      encode_integer.mpr ⟨deposit, rfl, range_deposit hdeposit, rfl⟩, rfl⟩

theorem decode_eq (data : Bytes) : decode (.bytes data) =
    ((Catalog.transaction.deserialize data).mapError Error.decode >>= ofValue) := rfl

theorem decode_wire (hname : Utf8.encode method = .ok name) (hlen : name.length ≤ maxLength)
    (hargs : args.length ≤ maxLength) (hgas : gas < 2 ^ 64) (hdeposit : deposit < 2 ^ 128) :
    decode (.bytes (wire name args gas deposit)) =
      .ok ⟨.text method, args, .int gas, .int deposit⟩ := by
  rw [decode_eq, deserialize_of_layout transaction_nodes.1 transaction_nodes.2.1
    (layout_wire hname hlen hargs hgas hdeposit)]
  rfl

/-- Whatever is built, with whatever may be spent, is read as it was given. -/
theorem decode_of_build {gas deposit : Value}
    (h : build (.text method) (.bytes args) gas deposit = .ok data) :
    decode (.bytes data) = .ok ⟨.text method, args, gas, deposit⟩ := by
  obtain ⟨_, _, _, _, -, -, hgas, hdeposit, -⟩ := build_parts.mp h
  obtain ⟨gas, rfl, hgas, -⟩ := encode_unsigned.mp hgas
  obtain ⟨deposit, rfl, hdeposit, -⟩ := encode_unsigned.mp hdeposit
  obtain ⟨name, hname, hlen, hargs, rfl⟩ := (build_eq_ok hgas hdeposit).mp h
  exact decode_wire hname hlen hargs hgas hdeposit

theorem record_of_layout {r : Rules} {v : Value} (h : Layout r Catalog.transaction v data) :
    ∃ method args gas deposit, v = record method (.bytes args) gas deposit := by
  rcases h with - | - | - | - | - | - | - | - | - | hmethod
  rcases hmethod with - | ⟨-, hargs⟩
  rcases hargs with - | ⟨⟨⟩, hgas⟩
  rcases hgas with - | ⟨-, hdeposit⟩
  rcases hdeposit with - | ⟨-, ⟨⟩⟩
  exact ⟨_, _, _, _, rfl⟩

/-- Whatever is read as an envelope is written again in the same way. -/
theorem toBytes_of_decode {e : Envelope} (h : decode (.bytes data) = .ok e) :
    e.toBytes = .ok data := by
  obtain ⟨v, hv, he⟩ := bind_eq_ok.mp ((decode_eq data).symm.trans h)
  have hspan := mapError_eq_ok.mp hv
  have hwritten := reencodes_of_flat transaction_nodes.1 transaction_nodes.2.2 _ _ _
    (deserialize_eq_ok.mp hspan)
  rw [List.take_length] at hwritten
  obtain ⟨method, args, gas, deposit, rfl⟩ := record_of_layout (layout_of_deserialize hspan)
  cases he
  exact mapError_eq_ok.mpr hwritten

/-! ### The schema of the arguments -/

/-- The methods of the catalogue are short, and their arguments are read back. -/
theorem methodArgs_nodes : ∀ f ∈ Catalog.methodArgs, f.1.all (!·.isSurrogate) ∧
    (f.1.flatMap Utf8.encodeOne).length ≤ 16 ∧ f.2.all isSound ∧ f.2.all isExact := by
  decide

theorem mem_of_argsOf {s : Schema} (h : Catalog.argsOf (.text method) = .ok s) :
    (method, s) ∈ Catalog.methodArgs := by
  change ((Catalog.methodArgs.lookup method).map Except.ok).getD _ = _ at h
  cases hlookup : Catalog.methodArgs.lookup method with
  | none =>
    rw [hlookup] at h
    cases h
  | some s' =>
    rw [hlookup] at h
    cases h
    exact mem_of_lookup hlookup

theorem encode_of_argsOf {s : Schema} (h : Catalog.argsOf (.text method) = .ok s) :
    ∃ name, Utf8.encode method = .ok name ∧ name.length ≤ maxLength := by
  obtain ⟨hplain, hlen, -⟩ := methodArgs_nodes _ (mem_of_argsOf h)
  simp only [List.all_eq_true, Bool.not_eq_true'] at hplain
  exact ⟨_, Utf8.encode_eq_ok.mpr ⟨hplain, rfl⟩, Nat.le_trans hlen (by decide)⟩

theorem argsSchema_none {s : Schema}
    (h : argsSchema (.text method) (.value .none) = .ok (.schema s)) :
    Catalog.argsOf (.text method) = .ok s := by
  obtain ⟨s', hs, heq⟩ := map_eq_ok.mp (mapError_eq_ok.mp h)
  cases heq
  exact hs

theorem argsSchema_of_argsOf {s : Schema} (h : Catalog.argsOf (.text method) = .ok s) :
    argsSchema (.text method) (.value .none) = .ok (.schema s) := by
  show ((Catalog.argsOf (.text method)).map Candidate.schema).mapError Error.catalog = _
  rw [h]
  rfl

/-- The arguments are decoded by the schema that they were encoded by. -/
theorem decodeArgs_eq {offered : Candidate} {s : Schema}
    (hs : argsSchema (.text method) offered = .ok (.schema s)) (args : Bytes) (gas deposit : Value) :
    decodeArgs ⟨.text method, args, gas, deposit⟩ offered =
      (s.deserialize args).mapError .decode := by
  unfold decodeArgs
  rw [hs]
  rfl

theorem decodeArgs_of_roundTrips {offered : Candidate} {s : Schema} {v : Value}
    (hs : argsSchema (.text method) offered = .ok (.schema s)) (hround : RoundTrips s)
    (hargs : s.encode v = .ok args) (gas deposit : Value) :
    ∃ n, Value.Reordered (s.plain v) n ∧
      decodeArgs ⟨.text method, args, gas, deposit⟩ offered = .ok n ∧ s.encode n = .ok args := by
  obtain ⟨n, hn, hdecode, hencode⟩ := hround v args hargs
  have hspan := hdecode []
  rw [List.append_nil] at hspan
  refine ⟨n, hn, ?_, hencode⟩
  rw [decodeArgs_eq hs, deserialize_eq_ok.mpr hspan]
  rfl

end Envelope

/-! ### Calls -/

namespace Config

/-- What a call may spend: what is given, and what the configuration says where nothing is. -/
structure Spends (c : Config) (given : Spending) (gas deposit : Nat) : Prop where
  gas_eq : given.gas = .int gas ∨ given.gas = .none ∧ c.spending.gas = .int gas
  deposit_eq : given.deposit = .int deposit ∨
    given.deposit = .none ∧ c.spending.deposit = .int deposit
  gas_lt : gas < 2 ^ 64
  deposit_lt : deposit < 2 ^ 128

theorem orDefault_int {v other : Value} {n : Int}
    (h : v = .int n ∨ v = .none ∧ other = .int n) : orDefault v other = .int n := by
  rcases h with rfl | ⟨rfl, rfl⟩ <;> rfl

variable {c : Config} {method : Text} {offered : Candidate} {s : Schema} {args : Value}
  {body data : Bytes} {given : Spending} {gas deposit : Nat}

theorem encodeCall_eq (hs : Envelope.argsSchema (.text method) offered = .ok (.schema s))
    (hargs : s.encode args = .ok body) (hspend : c.Spends given gas deposit) :
    c.encodeCall (.text method) args given offered =
      Envelope.build (.text method) (.bytes body) (.int gas) (.int deposit) := by
  unfold encodeCall
  rw [hs, orDefault_int hspend.gas_eq, orDefault_int hspend.deposit_eq]
  show ((s.encode args).mapError Error.encode >>= _) = _
  rw [hargs]
  rfl

theorem encodeCall_eq_ok (hs : Envelope.argsSchema (.text method) offered = .ok (.schema s))
    (hargs : s.encode args = .ok body) (hspend : c.Spends given gas deposit) :
    c.encodeCall (.text method) args given offered = .ok data ↔
      ∃ name, Utf8.encode method = .ok name ∧ name.length ≤ maxLength ∧ body.length ≤ maxLength ∧
        Envelope.wire name body gas deposit = data := by
  rw [encodeCall_eq hs hargs hspend]
  exact Envelope.build_eq_ok hspend.gas_lt hspend.deposit_lt

theorem decode_of_encodeCall (hs : Envelope.argsSchema (.text method) offered = .ok (.schema s))
    (h : c.encodeCall (.text method) args given offered = .ok data) :
    ∃ body gas deposit, s.encode args = .ok body ∧
      Envelope.decode (.bytes data) = .ok ⟨.text method, body, gas, deposit⟩ := by
  unfold encodeCall at h
  rw [hs] at h
  obtain ⟨_, ⟨⟩, h⟩ := bind_eq_ok.mp h
  obtain ⟨body, hbody, hbuild⟩ := bind_eq_ok.mp h
  exact ⟨body, _, _, mapError_eq_ok.mp hbody, Envelope.decode_of_build hbuild⟩

/-- A call of a method that is spelled in UTF-8 goes through, if method and arguments fit behind their
lengths, and no other. All of it is read from the envelope: the arguments as the plain value, if their
schema is of the catalogue or no width in it was given as a floating-point number. Methods of the
catalogue fit, and what is read as an envelope is written again. -/
theorem encodeCall_lossless :
    (∀ (c : Config) (method : Text) (offered : Candidate) (s : Schema) (args : Value)
        (body : Bytes) (given : Spending) (gas deposit : Nat),
      Envelope.argsSchema (.text method) offered = .ok (.schema s) →
      s.encode args = .ok body → c.Spends given gas deposit →
      ((∃ data, c.encodeCall (.text method) args given offered = .ok data) ↔
        (∃ name, Utf8.encode method = .ok name ∧ name.length ≤ 2 ^ 32 - 1) ∧
          body.length ≤ 2 ^ 32 - 1) ∧
      ∀ data, c.encodeCall (.text method) args given offered = .ok data →
        Envelope.decode (.bytes data) = .ok ⟨.text method, body, .int gas, .int deposit⟩ ∧
        (offered = .value .none ∨ (∃ b : Blueprint, b.build = .ok s ∧ b.wholeWidths) →
          ∃ n, Value.Reordered (s.plain args) n ∧
            Envelope.decodeArgs ⟨.text method, body, .int gas, .int deposit⟩ offered = .ok n ∧
            s.encode n = .ok body)) ∧
    (∀ method s, Catalog.argsOf (.text method) = .ok s →
      ∃ name, Utf8.encode method = .ok name ∧ name.length ≤ 2 ^ 32 - 1) ∧
    ∀ data e, Envelope.decode (.bytes data) = .ok e → e.toBytes = .ok data := by
  refine ⟨fun c method offered s args body given gas deposit hs hargs hspend => ⟨?_, ?_⟩,
    fun method s => Envelope.encode_of_argsOf, fun data e => Envelope.toBytes_of_decode⟩
  · simp only [encodeCall_eq_ok hs hargs hspend]
    constructor
    · rintro ⟨_, name, hname, hlen, hbody, -⟩
      exact ⟨⟨name, hname, hlen⟩, hbody⟩
    · rintro ⟨⟨name, hname, hlen⟩, hbody⟩
      exact ⟨_, name, hname, hlen, hbody, rfl⟩
  · intro data hdata
    obtain ⟨name, hname, hlen, hbody, rfl⟩ := (encodeCall_eq_ok hs hargs hspend).mp hdata
    refine ⟨Envelope.decode_wire hname hlen hbody hspend.gas_lt hspend.deposit_lt, fun h => ?_⟩
    have hnodes : s.all Schema.isSound ∧ s.all Schema.isExact := by
      rcases h with rfl | ⟨b, hbuild, hwhole⟩
      · exact (Envelope.methodArgs_nodes _
          (Envelope.mem_of_argsOf (Envelope.argsSchema_none hs))).2.2
      · exact ⟨Blueprint.sound_of_build hbuild, Blueprint.exact_of_build hwhole hbuild⟩
    exact Envelope.decodeArgs_of_roundTrips hs
      (Schema.roundTrips_of_fits hnodes.1 (Schema.fits_of_exact hnodes.1 hnodes.2 _ _)) hargs _ _

/-- A call of a pool in the configuration that is the default. -/
theorem encodeCall_lossless_getPool : ∃ data,
    default.encodeCall (.text "get_pool") (.int 7) ⟨.none, .int 1⟩ (.value .none) = .ok data ∧
      Envelope.decode (.bytes data) =
        .ok ⟨.text "get_pool", Bytes.ofIntLE 16 7, .int 300000, .int 1⟩ ∧
      (∃ n, Value.Reordered (.int 7) n ∧
        Envelope.decodeArgs ⟨.text "get_pool", Bytes.ofIntLE 16 7, .int 300000, .int 1⟩
          (.value .none) = .ok n) ∧
      Envelope.toBytes ⟨.text "get_pool", Bytes.ofIntLE 16 7, .int 300000, .int 1⟩ = .ok data := by
  obtain ⟨hcall, hmethod, hread⟩ := encodeCall_lossless
  have hspend : default.Spends ⟨.none, .int 1⟩ 300000 1 :=
    ⟨.inr ⟨rfl, rfl⟩, .inl rfl, by decide, by decide⟩
  obtain ⟨hok, hback⟩ := hcall default "get_pool" (.value .none) Schema.u128 (.int 7)
    (Bytes.ofIntLE 16 7) ⟨.none, .int 1⟩ 300000 1 rfl rfl hspend
  obtain ⟨data, hdata⟩ := hok.mpr ⟨hmethod "get_pool" _ rfl, by decide⟩
  obtain ⟨hdecode, hargs⟩ := hback data hdata
  obtain ⟨n, hn, hn', -⟩ := hargs (.inl rfl)
  exact ⟨data, hdata, hdecode, ⟨n, hn, hn'⟩, hread data _ hdecode⟩

/-! ### Calls that are refused -/

theorem encodeCall_ne_ok_of_args (hs : Envelope.argsSchema (.text method) offered = .ok (.schema s))
    (hargs : s.encode args = .ok body) (hspend : c.Spends given gas deposit)
    (hlong : maxLength < body.length) (data : Bytes) :
    c.encodeCall (.text method) args given offered ≠ .ok data := by
  intro h
  obtain ⟨_, -, -, hle, -⟩ := (encodeCall_eq_ok hs hargs hspend).mp h
  exact absurd hle (Nat.not_le.mpr hlong)

theorem encodeCall_ne_ok_of_method
    (hs : Envelope.argsSchema (.text method) offered = .ok (.schema s))
    (hargs : s.encode args = .ok body) (hspend : c.Spends given gas deposit)
    (hlong : maxLength < (method.flatMap Utf8.encodeOne).length) (data : Bytes) :
    c.encodeCall (.text method) args given offered ≠ .ok data := by
  intro h
  obtain ⟨name, hname, hle, -⟩ := (encodeCall_eq_ok hs hargs hspend).mp h
  obtain ⟨-, rfl⟩ := Utf8.encode_eq_ok.mp hname
  exact absurd hle (Nat.not_le.mpr hlong)

theorem length_flatMap_replicate (n : Nat) :
    ((List.replicate n (CodePoint.ofChar 'a')).flatMap Utf8.encodeOne).length = n := by
  have h : (Utf8.encodeOne (CodePoint.ofChar 'a')).length = 1 := rfl
  simp [List.length_flatMap, h]

theorem encode_initArgs {bs : Bytes} (h : bs.length ≤ maxLength) :
    Catalog.initArgs.encode (.bytes bs) = .ok (Bytes.ofNatLE lengthSize bs.length ++ bs) :=
  Schema.encode_bytes.mpr ⟨bs, .inl rfl, h, rfl⟩

theorem spends_default : default.Spends ⟨.int 0, .int 0⟩ 0 0 :=
  ⟨.inl rfl, .inl rfl, by decide, by decide⟩

/-- Arguments that their schema takes are refused in an envelope, if the method has no spelling in
UTF-8, or if method or encoded arguments are longer than what a length can say. -/
theorem encodeCall_refused :
    (Schema.unit.encode (.map []) = .ok [] ∧
      default.encodeCall (.text [CodePoint.ofNat 0xD800]) (.map []) ⟨.int 0, .int 0⟩
        (.schema .unit) = .error (.encode (.mismatch [.name "method"]
          (.surrogates ⟨0, 0, CodePoint.ofNat 0xD800⟩)))) ∧
    (∀ data, default.encodeCall (.text (List.replicate (maxLength + 1) (CodePoint.ofChar 'a')))
      (.map []) ⟨.int 0, .int 0⟩ (.schema .unit) ≠ .ok data) ∧
    ∃ body, Catalog.initArgs.encode (.bytes (List.replicate maxLength 0)) = .ok body ∧
      ∀ data, default.encodeCall (.text "init") (.bytes (List.replicate maxLength 0))
        ⟨.int 0, .int 0⟩ (.value .none) ≠ .ok data := by
  have hunit : Schema.unit.encode (.map []) = .ok [] := rfl
  have hinit := encode_initArgs (Nat.le_of_eq (List.length_replicate (n := maxLength) (a := 0)))
  refine ⟨⟨hunit, rfl⟩, encodeCall_ne_ok_of_method rfl hunit spends_default ?_,
    _, hinit, encodeCall_ne_ok_of_args rfl hinit spends_default ?_⟩
  · rw [length_flatMap_replicate]
    exact Nat.lt_succ_self maxLength
  · simp [lengthSize]

end Config

end LedgerWire
