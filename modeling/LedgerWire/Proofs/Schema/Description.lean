import LedgerWire.Proofs.Schema.Safety

/-!
# The values that a schema describes

`Schema.Describes` says what a value has to look like to fit a schema, node by node and without a look
at how it is written. For every schema in which no integer of a floating-point width can be met, such
values are accepted, and every other value is refused as a misfit.
-/

namespace LedgerWire

namespace Schema

open Value

variable {s : Schema} {v : Value}

/-! ### What fits -/

/-- The value fits the schema. -/
inductive Describes : Schema → Value → Prop
  | integer {w : Width} {signed : Bool} {n : Int} (range : w.minInt signed ≤ n ∧ n ≤ w.maxInt signed) :
    Describes (.integer w signed) (.int n)
  | floatInteger {w : Width} {signed : Bool} {n : Int}
    (range : w.minInt signed ≤ n ∧ n ≤ w.maxInt signed) : Describes (.floatInteger w signed) (.int n)
  | bool (b : Bool) : Describes .bool (.bool b)
  | text {t : Text} (proper : ∀ c ∈ t, c.isSurrogate = false)
    (fits : (t.flatMap Utf8.encodeOne).length ≤ maxLength) : Describes .text (.text t)
  | bytes {v : Value} {n : Nat} (count : v.HasBytes n) (fits : n ≤ maxLength) : Describes .bytes v
  | fixedBytes {v : Value} {n : Nat} (count : v.HasBytes n) : Describes (.fixedBytes n) v
  | none (inner : Schema) : Describes (.option inner) .none
  | some {inner : Schema} {v : Value} (payload : Describes inner v) : Describes (.option inner) v
  | vec {inner : Schema} {items : List Value} (fits : items.length ≤ maxLength)
    (each : ∀ item ∈ items, Describes inner item) : Describes (.vec inner) (.list items)
  | array {inner : Schema} {items : List Value} (each : ∀ item ∈ items, Describes inner item) :
    Describes (.array inner items.length) (.list items)
  | record {fields : List (Text × Schema)} {entries : Entries} (keys : HasKeys entries fields)
    (each : ∀ f ∈ fields, ∀ v, (.text f.1, v) ∈ entries → Describes f.2 v) :
    Describes (.record fields) (.map entries)
  | union {variants : List (Text × Schema)} {name : Text} {s : Schema} {payload : Value}
    (variant : (name, s) ∈ variants) (part : Describes s payload) :
    Describes (.union variants) (.map [(.text name, payload)])

/-- A value is written just if it fits, where no integer of a floating-point width can be met. -/
theorem accepts_iff_describes (hs : s.all isSound) (hf : s.meetsFloat = false) :
    Accepts s v ↔ Describes s v := by
  induction s generalizing v with
  | integer w signed =>
    constructor
    · rintro ⟨bs, h⟩
      obtain ⟨n, rfl, range, -⟩ := encode_integer.mp h
      exact .integer range
    · intro h
      cases h with
      | integer range => exact ⟨_, encode_integer.mpr ⟨_, rfl, range, rfl⟩⟩
  | floatInteger w signed => cases hf
  | bool =>
    constructor
    · rintro ⟨bs, h⟩
      obtain ⟨b, rfl, -⟩ := encode_bool.mp h
      exact .bool b
    · intro h
      cases h with
      | bool b => exact ⟨_, encode_bool.mpr ⟨b, rfl, rfl⟩⟩
  | text =>
    rw [accepts_text]
    constructor
    · rintro ⟨t, rfl, proper, fits⟩
      exact .text proper fits
    · intro h
      cases h with
      | text proper fits => exact ⟨_, rfl, proper, fits⟩
  | bytes =>
    rw [accepts_bytes]
    constructor
    · rintro ⟨n, count, fits⟩
      exact .bytes count fits
    · intro h
      cases h with
      | bytes count fits => exact ⟨_, count, fits⟩
  | fixedBytes length =>
    rw [accepts_fixedBytes]
    constructor
    · exact .fixedBytes
    · intro h
      cases h with
      | fixedBytes count => exact count
  | option inner ih =>
    rw [accepts_option, ih (all_option hs) hf]
    constructor
    · rintro (rfl | h)
      · exact .none inner
      · exact .some h
    · intro h
      cases h with
      | none => exact .inl rfl
      | some payload => exact .inr payload
  | vec inner ih =>
    simp only [accepts_vec, ih (all_vec hs) hf]
    constructor
    · rintro ⟨items, rfl, fits, each⟩
      exact .vec fits each
    · intro h
      cases h with
      | vec fits each => exact ⟨_, rfl, fits, each⟩
  | array inner length ih =>
    rw [accepts_array]
    constructor
    · rintro ⟨items, rfl, rfl, each⟩
      refine .array fun item hi => ?_
      have h0 : items.length ≠ 0 := (List.length_pos_of_mem hi).ne'
      exact (ih (all_array hs) (by simpa [meetsFloat, h0] using hf)).mp (each item hi)
    · intro h
      cases h with
      | @array _ items each =>
        refine ⟨items, rfl, rfl, fun item hi => ?_⟩
        have h0 : items.length ≠ 0 := (List.length_pos_of_mem hi).ne'
        exact (ih (all_array hs) (by simpa [meetsFloat, h0] using hf)).mpr (each item hi)
  | record fields ih =>
    have hiff : ∀ f ∈ fields, ∀ w, Accepts f.2 w ↔ Describes f.2 w := fun f hmem w =>
      ih f hmem (all_record hs f hmem) (meetsFloatIn_eq_false.mp hf f hmem)
    rw [accepts_record (nodup_of_record hs)]
    constructor
    · rintro ⟨entries, rfl, keys, each⟩
      exact .record keys fun f hmem w hw => (hiff f hmem w).mp (each f hmem w hw)
    · intro h
      cases h with
      | record keys each =>
        exact ⟨_, rfl, keys, fun f hmem w hw => (hiff f hmem w).mpr (each f hmem w hw)⟩
  | union variants ih =>
    have hiff : ∀ f ∈ variants, ∀ w, Accepts f.2 w ↔ Describes f.2 w := fun f hmem w =>
      ih f hmem (all_union hs f hmem) (meetsFloatIn_eq_false.mp hf f hmem)
    rw [accepts_union (nodup_of_union hs)]
    constructor
    · rintro ⟨name, s, payload, hmem, rfl, h⟩
      exact .union hmem ((hiff _ hmem payload).mp h)
    · intro h
      cases h with
      | union hmem part => exact ⟨_, _, _, hmem, rfl, (hiff _ hmem _).mpr part⟩

theorem encode_of_not_describes (hs : s.all isSound) (hf : s.meetsFloat = false)
    (h : ¬ Describes s v) : ∃ path misfit, s.encode v = .error (.mismatch path misfit) :=
  (((safe_iff hs).mpr hf).encode v).resolve_left fun hv => h ((accepts_iff_describes hs hf).mp hv)

/-- A schema that was built, and in which no integer of a floating-point width can be met, writes just
the values that fit it; any other value is a misfit. No such integer is met where all widths were given
as integers. -/
theorem accepts_just_described (b : Blueprint) (s : Schema) (h : b.build = .ok s) :
    (s.meetsFloat = false → ∀ v, ((∃ bs, s.encode v = .ok bs) ↔ Describes s v) ∧
      (¬ Describes s v → ∃ path misfit, s.encode v = .error (.mismatch path misfit))) ∧
    (b.wholeWidths → s.meetsFloat = false) := by
  have hs := Blueprint.sound_of_build h
  refine ⟨fun hf v => ⟨accepts_iff_describes hs hf, encode_of_not_describes hs hf⟩, fun hw => ?_⟩
  exact meetsFloat_of_exact (Blueprint.exact_of_build hw h)

/-- A mapping with its entries the other way round, and a list with a truth value for a byte string. -/
theorem accepts_just_described_pair :
    (Blueprint.record [(.text "n", .integer (.int 8) (.bool true)), (.text "b", .bytes)]).build =
        .ok (.record [("n", .integer .w8 true), ("b", .bytes)]) ∧
      (record [("n", .integer .w8 true), ("b", .bytes)]).meetsFloat = false ∧
      Describes (.record [("n", .integer .w8 true), ("b", .bytes)])
        (.map [(.text "b", .list [.bool true]), (.text "n", .int (-128))]) :=
  have h := accepts_just_described
    (.record [(.text "n", .integer (.int 8) (.bool true)), (.text "b", .bytes)]) _ rfl
  ⟨rfl, rfl, (h.1 rfl _).1.mp ⟨[128, 1, 0, 0, 0, 1], rfl⟩⟩

theorem encode_bytes_long {body : Bytes} (h : maxLength < body.length) :
    Schema.bytes.encode (.bytes body) = .error (.mismatch [] (.tooLong body.length)) := by
  have hlength : encodeLength body.length = misfit (.tooLong body.length) :=
    if_neg (Nat.not_le.mpr h)
  show (encodeLength body.length >>= fun length => pure (length ++ body)) = _
  rw [hlength]
  rfl

/-- A byte string is refused for its length alone, and the integer 1 for the floating-point number that
the width was given as. -/
theorem refused_though_alike :
    (.bytes (List.replicate (2 ^ 32) 0) : Value).HasBytes (2 ^ 32) ∧
      Schema.bytes.encode (.bytes (List.replicate (2 ^ 32) 0)) =
        .error (.mismatch [] (.tooLong (2 ^ 32))) ∧
      (Blueprint.integer (.float (.ofNat 8)) (.bool true)).build = .ok (.floatInteger .w8 true) ∧
      Describes (.floatInteger .w8 true) (.int 1) ∧
      (floatInteger .w8 true).encode (.int 1) = .error .floatWidth := by
  have hlen : (List.replicate (2 ^ 32) (0 : UInt8)).length = 2 ^ 32 := List.length_replicate
  have hbytes := HasBytes.bytes (List.replicate (2 ^ 32) 0)
  have hmax : maxLength < (List.replicate (2 ^ 32) (0 : UInt8)).length := by
    rw [hlen]
    decide
  have hlong := encode_bytes_long hmax
  rw [hlen] at hbytes hlong
  exact ⟨hbytes, hlong, Blueprint.build_floatInteger, .floatInteger (by decide), rfl⟩

end Schema

end LedgerWire
