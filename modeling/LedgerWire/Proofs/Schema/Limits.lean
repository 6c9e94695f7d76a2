import LedgerWire.Proofs.Schema.Canonical

/-!
# What is too long to be written

A value of the right shape is refused for its length alone. `Schema.Writes` names the bytes of a value
before it is known whether they fit: nothing else is written for it, and they are written if all of them
fit behind one length. Records, unions and lists of keys take this over from their parts.
-/

namespace LedgerWire

namespace Schema

/-- Only these bytes are written for a value, and they are as soon as they fit behind a length. -/
structure Writes (s : Schema) (v : Value) (body : Bytes) : Prop where
  layout : body.length ≤ maxLength → Layout .written s v body
  only : ∀ bs, s.encode v = .ok bs → bs = body

variable {s : Schema} {v : Value} {body : Bytes}

theorem Writes.encode (h : Writes s v body) (hs : s.all isSound) (hlen : body.length ≤ maxLength) :
    s.encode v = .ok body :=
  encode_of_layout hs id (h.layout hlen)

/-! ### Single values -/

theorem writes_u128 {n : Nat} (h : n < 2 ^ 128) :
    Writes u128 (.int n) (Bytes.ofIntLE Width.w128.bytes n) where
  layout _ := .integer ((Width.natural_range .w128 n).mpr ⟨n, rfl, h⟩)
  only bs h := by
    obtain ⟨_, ⟨⟩, -, rfl⟩ := encode_integer.mp h
    rfl

theorem writes_text {t : Text} (utf8 : Utf8.encode t = .ok body) :
    Writes .text (.text t) (Bytes.ofNatLE lengthSize body.length ++ body) where
  layout hlen := by
    rw [List.length_append] at hlen
    exact .text utf8 (Nat.le_trans (Nat.le_add_left _ _) hlen)
  only bs h := by
    obtain ⟨_, _, ⟨⟩, utf8', -, rfl⟩ := encode_text.mp h
    cases utf8.symm.trans utf8'
    rfl

theorem writes_bytes (body : Bytes) :
    Writes .bytes (.bytes body) (Bytes.ofNatLE lengthSize body.length ++ body) where
  layout hlen := by
    rw [List.length_append] at hlen
    exact .bytes (Nat.le_trans (Nat.le_add_left _ _) hlen)
  only bs h := by
    obtain ⟨_, ⟨⟨⟩⟩ | ⟨_, ⟨⟩, -⟩, -, rfl⟩ := encode_bytes.mp h
    rfl

/-! ### Lists of keys -/

theorem encode_key {key bs : Bytes} (h : encode (.fixedBytes key.length) (.bytes key) = .ok bs) :
    bs = key := by
  obtain ⟨⟨⟨⟩⟩ | ⟨_, ⟨⟩, -⟩, -⟩ := encode_fixedBytes.mp h
  rfl

theorem writes_key (key : Bytes) : Writes (.fixedBytes key.length) (.bytes key) key where
  layout _ := .fixedBytes key
  only _ h := encode_key h

theorem layout_keys {size : Nat} {keys : List Bytes} (h : ∀ key ∈ keys, key.length = size) :
    LayoutItems .written (.fixedBytes size) (keys.map .bytes) keys.flatten := by
  induction keys with
  | nil => exact .nil _
  | cons key keys ih =>
    obtain ⟨rfl, hkeys⟩ := List.forall_mem_cons.mp h
    exact .cons (.fixedBytes key) (ih hkeys)

theorem length_keys {size : Nat} {keys : List Bytes} (h : ∀ key ∈ keys, key.length = size) :
    keys.flatten.length = keys.length * size := by
  induction keys with
  | nil => simp
  | cons key keys ih =>
    obtain ⟨hkey, hkeys⟩ := List.forall_mem_cons.mp h
    rw [List.flatten_cons, List.length_append, hkey, ih hkeys, List.length_cons, Nat.succ_mul,
      Nat.add_comm]

theorem only_keys {size : Nat} {keys parts : List Bytes} (h : ∀ key ∈ keys, key.length = size)
    (hp : List.Forall₂ (fun item part => encode (.fixedBytes size) item = .ok part)
      (keys.map .bytes) parts) : parts = keys := by
  induction keys generalizing parts with
  | nil =>
    cases hp
    rfl
  | cons key keys ih =>
    obtain ⟨rfl, hkeys⟩ := List.forall_mem_cons.mp h
    cases hp with
    | cons head tail => rw [encode_key head, ih hkeys tail]

theorem writes_keys {size : Nat} {keys : List Bytes} (hpos : 0 < size)
    (h : ∀ key ∈ keys, key.length = size) :
    Writes (.vec (.fixedBytes size)) (.list (keys.map .bytes))
      (Bytes.ofNatLE lengthSize keys.length ++ keys.flatten) where
  layout hlen := by
    rw [List.length_append, length_keys h] at hlen
    have hle := Nat.le_mul_of_pos_right keys.length hpos
    have hfits : (keys.map Value.bytes).length ≤ maxLength := by
      rw [List.length_map]
      exact Nat.le_trans hle (Nat.le_trans (Nat.le_add_left _ _) hlen)
    have := Layout.vec (r := .written) hfits trivial (layout_keys h)
    rwa [List.length_map] at this
  only bs hbs := by
    obtain ⟨_, parts, ⟨⟩, -, hp, rfl⟩ := encode_vec.mp hbs
    rw [only_keys h hp, List.length_map]

/-! ### Records and unions -/

theorem length_le_flatten {rows : List Row} {row : Row} (h : row ∈ rows) :
    row.bytes.length ≤ (rows.map (·.bytes)).flatten.length :=
  (List.sublist_flatten_of_mem (List.mem_map_of_mem h)).length_le

theorem only_fields {rows : List Row} {entries : Entries} {bs : Bytes}
    (h : ∀ row ∈ rows, Writes row.schema row.value row.bytes)
    (hv : ∀ row ∈ rows, entries.field? row.name = some row.value)
    (hbs : encodeFields (rows.map Row.field) entries = .ok bs) :
    bs = (rows.map (·.bytes)).flatten := by
  induction rows generalizing bs with
  | nil =>
    cases hbs
    rfl
  | cons row rows ih =>
    obtain ⟨hrow, hrows⟩ := List.forall_mem_cons.mp h
    obtain ⟨hvalue, hvalues⟩ := List.forall_mem_cons.mp hv
    obtain ⟨front, hfront, back, hback, rfl⟩ := (encodeFields_cons hvalue).mp hbs
    rw [hrow.only front hfront, ih hrows hvalues hback]
    rfl

theorem writes_record {rows : List Row} (hn : ((rows.map Row.field).map (·.1)).Nodup)
    (h : ∀ row ∈ rows, Writes row.schema row.value row.bytes) :
    Writes (.record (rows.map Row.field)) (.map (rows.map Row.entry))
      (rows.map (·.bytes)).flatten where
  layout hlen := by
    refine .record (layoutFields_iff.mpr ⟨rows, rfl, rfl, fun row hrow => ?_, rfl⟩)
    exact (h row hrow).layout (Nat.le_trans (length_le_flatten hrow) hlen)
  only bs hbs := by
    obtain ⟨-, -, hfields⟩ := bind_eq_ok.mp hbs
    refine only_fields h (fun row hrow => ?_) hfields
    refine Entries.field?_of_mem ?_ (List.mem_map_of_mem (f := Row.entry) hrow)
    rw [map_fst_entry]
    exact keys_nodup hn

/-- A record of two fields. -/
theorem writes_pair {first second : Text} {s t : Schema} {v w : Value} {front back : Bytes}
    (hne : first ≠ second) (hfront : Writes s v front) (hback : Writes t w back) :
    Writes (.record [(first, s), (second, t)]) (.map [(.text first, v), (.text second, w)])
      (front ++ back) := by
  let rows : List Row := [⟨first, s, v, front⟩, ⟨second, t, w, back⟩]
  have hn : ((rows.map Row.field).map (·.1)).Nodup := List.nodup_cons.mpr
    ⟨fun hmem => hne (List.mem_singleton.mp hmem), List.nodup_singleton second⟩
  have hrows : ∀ row ∈ rows, Writes row.schema row.value row.bytes :=
    List.forall_mem_cons.mpr ⟨hfront, List.forall_mem_singleton.mpr hback⟩
  have := writes_record hn hrows
  rwa [show (rows.map (·.bytes)).flatten = front ++ back by simp [rows]] at this

/-- A record of numbers, each under its name. -/
theorem writes_numbers (fields : List (Text × Nat)) (hn : (fields.map (·.1)).Nodup)
    (h : ∀ f ∈ fields, f.2 < 2 ^ 128) :
    ∃ body, Writes (.record (fields.map fun f => (f.1, u128)))
      (.map (fields.map fun f => (.text f.1, .int f.2))) body ∧ body.length = fields.length * 16 := by
  let row (f : Text × Nat) : Row := ⟨f.1, u128, .int f.2, Bytes.ofIntLE Width.w128.bytes f.2⟩
  have hlen : ∀ part ∈ (fields.map row).map (·.bytes), part.length = 16 := by
    simp only [List.forall_mem_map]
    exact fun f _ => Bytes.length_ofIntLE 16 f.2
  have hfields : (fields.map row).map Row.field = fields.map fun f => (f.1, u128) :=
    List.map_map
  have hentries : (fields.map row).map Row.entry = fields.map fun f => (.text f.1, .int f.2) :=
    List.map_map
  refine ⟨((fields.map row).map (·.bytes)).flatten, ?_, ?_⟩
  · rw [← hfields, ← hentries]
    refine writes_record ?_ (List.forall_mem_map.mpr fun f hf => writes_u128 (h f hf))
    rw [hfields, List.map_map]
    exact hn
  · rw [length_keys hlen, List.length_map, List.length_map]

theorem writes_union {variants : List (Text × Schema)} {name : Text}
    (hs : (union variants).all isSound) (index : Nat) (hv : variants[index]? = some (name, s))
    (h : Writes s v body) :
    Writes (.union variants) (.map [(.text name, v)]) (UInt8.ofNat index :: body) where
  layout hlen := .union hv (h.layout (Nat.le_of_succ_le hlen))
  only bs hbs := by
    have hn := nodup_of_union hs
    obtain ⟨index', _, s', _, part, hv', ⟨⟩, hpart, rfl⟩ := (encode_union hn).mp hbs
    have hname : (variants.map (·.1))[index]? = (variants.map (·.1))[index']? := by
      rw [List.getElem?_map, List.getElem?_map, hv, hv']
      rfl
    have hlt : index < (variants.map (·.1)).length := by
      rw [List.length_map]
      exact (List.getElem?_eq_some_iff.mp hv).1
    obtain rfl := (List.getElem?_inj hlt hn).mp hname
    cases hv.symm.trans hv'
    rw [h.only part hpart]

end Schema

end LedgerWire
