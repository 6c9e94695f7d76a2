import LedgerWire.Proofs.Schema.Writing
import LedgerWire.Proofs.Text.Utf8
import LedgerWire.Schema.Decode

/-!
# What is read

For each node of a schema, what it means that a value is read: which reads come after each other, and
what each of them finds. `Schema.Admits` is the check of the number of items of a list. `Reader.Takes`
says that a reader takes just the front of what is left, wherever that stands; the lemmas named
`takes_…` give it for what is written.
-/

namespace LedgerWire

/-! ### Cursors -/

namespace Cursor

theorem take_eq_ok {c : Cursor} {size : Nat} {bs : Bytes} {c' : Cursor} :
    c.take size = .ok (bs, c') ↔
      bs.length = size ∧ c.rest = bs ++ c'.rest ∧ c'.offset = c.offset + size := by
  obtain ⟨offset, rest⟩ := c
  obtain ⟨offset', rest'⟩ := c'
  unfold take
  dsimp only
  by_cases h : (rest.take size).length = size
  · simp only [if_pos h, Except.ok.injEq, Prod.mk.injEq, Cursor.mk.injEq]
    constructor
    · rintro ⟨rfl, rfl, rfl⟩
      exact ⟨h, (List.take_append_drop size rest).symm, rfl⟩
    · rintro ⟨rfl, rfl, rfl⟩
      exact ⟨List.take_left, rfl, List.drop_left⟩
  · simp only [if_neg h, reduceCtorEq, false_iff]
    rintro ⟨rfl, rfl, -⟩
    exact h (by simp)

theorem next_eq_ok {c : Cursor} {b : UInt8} {c' : Cursor} :
    c.next = .ok (b, c') ↔ c.rest = b :: c'.rest ∧ c'.offset = c.offset + 1 := by
  obtain ⟨offset, rest⟩ := c
  obtain ⟨offset', rest'⟩ := c'
  cases rest with
  | nil => simp [next]
  | cons b' rest =>
    simp only [next, Except.ok.injEq, Prod.mk.injEq, Cursor.mk.injEq, List.cons.injEq]
    constructor
    · rintro ⟨rfl, rfl, rfl⟩
      exact ⟨⟨rfl, rfl⟩, rfl⟩
    · rintro ⟨⟨rfl, rfl⟩, rfl⟩
      exact ⟨rfl, rfl, rfl⟩

theorem length_eq_ok {c : Cursor} {n : Nat} {c' : Cursor} :
    c.length = .ok (n, c') ↔ n ≤ maxLength ∧ c.rest = Bytes.ofNatLE lengthSize n ++ c'.rest ∧
      c'.offset = c.offset + lengthSize := by
  simp only [length, bind_eq_ok, pure_def, Except.ok.injEq, Prod.exists, Prod.mk.injEq, take_eq_ok]
  constructor
  · rintro ⟨bs, c₁, ⟨hl, hr, ho⟩, rfl, rfl⟩
    have hlt := Bytes.toNatLE_lt bs
    rw [hl] at hlt
    refine ⟨Nat.le_of_lt_succ hlt, ?_, ho⟩
    rw [hr, ← hl, Bytes.ofNatLE_toNatLE]
  · rintro ⟨hn, hr, ho⟩
    have hlt : n < 256 ^ lengthSize := Nat.lt_succ_of_le hn
    exact ⟨_, c', ⟨Bytes.length_ofNatLE _ _, hr, ho⟩,
      by rw [Bytes.toNatLE_ofNatLE, Nat.mod_eq_of_lt hlt], rfl⟩

theorem length_ofNatLE {n : Nat} (h : n ≤ maxLength) (offset : Nat) (rest : Bytes) :
    length ⟨offset, Bytes.ofNatLE lengthSize n ++ rest⟩ = .ok (n, ⟨offset + lengthSize, rest⟩) :=
  length_eq_ok.mpr ⟨h, rfl, rfl⟩

/-- The second cursor is the first one, moved over `window`. -/
structure Passes (c : Cursor) (window : Bytes) (c' : Cursor) : Prop where
  rest : c.rest = window ++ c'.rest
  offset : c'.offset = c.offset + window.length

namespace Passes

variable {c c₁ c₂ : Cursor} {u w : Bytes}

theorem refl (c : Cursor) : c.Passes [] c := ⟨rfl, rfl⟩

theorem append (h₁ : c.Passes u c₁) (h₂ : c₁.Passes w c₂) : c.Passes (u ++ w) c₂ where
  rest := by rw [h₁.rest, h₂.rest, List.append_assoc]
  offset := by rw [h₂.offset, h₁.offset, List.length_append, Nat.add_assoc]

theorem of_take {size : Nat} (h : c.take size = .ok (w, c₁)) : w.length = size ∧ c.Passes w c₁ := by
  obtain ⟨rfl, hr, ho⟩ := take_eq_ok.mp h
  exact ⟨rfl, hr, ho⟩

theorem of_next {b : UInt8} (h : c.next = .ok (b, c₁)) : c.Passes [b] c₁ := by
  obtain ⟨hr, ho⟩ := next_eq_ok.mp h
  exact ⟨hr, ho⟩

theorem of_length {n : Nat} (h : c.length = .ok (n, c₁)) :
    n ≤ maxLength ∧ c.Passes (Bytes.ofNatLE lengthSize n) c₁ := by
  obtain ⟨hn, hr, ho⟩ := length_eq_ok.mp h
  exact ⟨hn, hr, by simpa using ho⟩

end Passes

end Cursor

/-! ### Readers -/

abbrev Reader (α : Type) := Cursor → Except DecodeError (α × Cursor)

/-- The reader takes `window` off, where `rest` comes after it. -/
def Reader.Takes {α : Type} (f : Reader α) (window : Bytes) (a : α) (rest : Bytes) : Prop :=
  ∀ offset, f ⟨offset, window ++ rest⟩ = .ok (a, ⟨offset + window.length, rest⟩)

namespace Schema

open Reader

variable {c c' : Cursor} {v : Value}

theorem read_integer {w : Width} {signed : Bool} :
    read (.integer w signed) c = .ok (v, c') ↔ ∃ raw, c.take w.bytes = .ok (raw, c') ∧
      Value.int (if signed then raw.toIntLE else raw.toNatLE) = v := by
  show readInteger w signed c = _ ↔ _
  simp [readInteger, and_comm]

theorem read_floatInteger {w : Width} {signed : Bool} :
    read (.floatInteger w signed) c ≠ .ok (v, c') := by
  show readFloatInteger w c ≠ _
  unfold readFloatInteger
  split <;> nofun

theorem read_bool : read .bool c = .ok (v, c') ↔
    ∃ b, c.next = .ok (b, c') ∧ b.toNat ≤ 1 ∧ Value.bool (b.toNat == 1) = v := by
  show readBool c = _ ↔ _
  simp only [readBool, bind_eq_ok, Prod.exists, pure_def]
  constructor
  · rintro ⟨b, c₁, h, hb⟩
    obtain ⟨h1, ⟨⟩⟩ := ite_eq_ok.mp hb
    exact ⟨b, h, h1, rfl⟩
  · rintro ⟨b, h, h1, rfl⟩
    exact ⟨b, c', h, if_pos h1⟩

theorem read_text : read .text c = .ok (v, c') ↔
    ∃ n c₁ raw t, c.length = .ok (n, c₁) ∧ c₁.take n = .ok (raw, c') ∧
      Utf8.decode raw = .ok t ∧ Value.text t = v := by
  show readText c = _ ↔ _
  simp only [readText, bind_eq_ok, Prod.exists, pure_def]
  constructor
  · rintro ⟨n, c₁, hn, raw, c₂, hr, h⟩
    cases ht : Utf8.decode raw with
    | error fault => simp [ht] at h
    | ok t =>
      simp only [ht] at h
      cases h
      exact ⟨n, c₁, raw, t, hn, hr, ht, rfl⟩
  · rintro ⟨n, c₁, raw, t, hn, hr, ht, rfl⟩
    exact ⟨n, c₁, hn, raw, c', hr, by simp [ht]⟩

theorem read_bytes : read .bytes c = .ok (v, c') ↔
    ∃ n c₁ raw, c.length = .ok (n, c₁) ∧ c₁.take n = .ok (raw, c') ∧ Value.bytes raw = v := by
  show readBytes c = _ ↔ _
  simp [readBytes, and_comm]

theorem read_fixedBytes {length : Nat} : read (.fixedBytes length) c = .ok (v, c') ↔
    ∃ raw, c.take length = .ok (raw, c') ∧ Value.bytes raw = v := by
  show readFixedBytes length c = _ ↔ _
  simp [readFixedBytes, and_comm]

theorem read_option {inner : Schema} : read (.option inner) c = .ok (v, c') ↔
    (c.next = .ok (0, c') ∧ .none = v) ∨
      ∃ c₁, c.next = .ok (1, c₁) ∧ read inner c₁ = .ok (v, c') := by
  simp only [read, bind_eq_ok, Prod.exists, pure_def]
  constructor
  · rintro ⟨flag, c₁, hf, h⟩
    by_cases h0 : flag = 0
    · subst h0
      rw [if_pos rfl] at h
      cases h
      exact .inl ⟨hf, rfl⟩
    by_cases h1 : flag = 1
    · subst h1
      rw [if_neg h0, if_pos rfl] at h
      exact .inr ⟨c₁, hf, h⟩
    · rw [if_neg h0, if_neg h1] at h
      cases h
  · rintro (⟨hf, rfl⟩ | ⟨c₁, hf, h⟩)
    · exact ⟨0, c', hf, rfl⟩
    · exact ⟨1, c₁, hf, h⟩

/-! ### Lists -/

/-- Where `left` bytes are left, the check of the number of items lets `count` items through. -/
def Admits (inner : Schema) (count left : Nat) : Prop :=
  ∃ least, inner.minSize.bind (Quantity.int count).mul = .ok least ∧
    (Quantity.int left).less least = false

theorem readItems_zero {f : Reader Value} {items : List Value} :
    readItems f 0 c = .ok (items, c') ↔ [] = items ∧ c = c' := by
  simp [readItems]

theorem readItems_succ {f : Reader Value} {count : Nat} {items : List Value} :
    readItems f (count + 1) c = .ok (items, c') ↔ ∃ item c₁ rest, f c = .ok (item, c₁) ∧
      readItems f count c₁ = .ok (rest, c') ∧ item :: rest = items := by
  simp only [readItems, bind_eq_ok, Prod.exists, pure_def, Except.ok.injEq, Prod.mk.injEq]
  constructor
  · rintro ⟨item, c₁, h, rest, c₂, hr, rfl, rfl⟩
    exact ⟨item, c₁, rest, h, hr, rfl⟩
  · rintro ⟨item, c₁, rest, h, hr, rfl⟩
    exact ⟨item, c₁, h, rest, c', hr, rfl, rfl⟩

theorem read_vec {inner : Schema} : read (.vec inner) c = .ok (v, c') ↔
    ∃ count c₁ items, c.length = .ok (count, c₁) ∧ inner.Admits count c₁.rest.length ∧
      readItems (read inner) count c₁ = .ok (items, c') ∧ Value.list items = v := by
  simp only [read, bind_eq_ok, Prod.exists, mapError_eq_ok, pure_def]
  constructor
  · rintro ⟨count, c₁, hc, least, hl, h⟩
    obtain ⟨hless, h⟩ := guard_eq_ok.mp h
    obtain ⟨⟨items, c₂⟩, hi, ⟨⟩⟩ := bind_eq_ok.mp h
    exact ⟨count, c₁, items, hc, ⟨least, hl, by simpa using hless⟩, hi, rfl⟩
  · rintro ⟨count, c₁, items, hc, ⟨least, hl, hless⟩, hi, rfl⟩
    refine ⟨count, c₁, hc, least, hl, guard_eq_ok.mpr ⟨by simp [hless], ?_⟩⟩
    exact bind_eq_ok.mpr ⟨(items, c'), hi, rfl⟩

theorem read_vec_refused {inner : Schema} {count : Nat} {c₁ : Cursor} {least : Quantity}
    (hc : c.length = .ok (count, c₁))
    (hl : inner.minSize.bind (Quantity.int count).mul = .ok least)
    (hless : (Quantity.int c₁.rest.length).less least = true) :
    read (.vec inner) c = .error (.truncatedItems (describe (.vec inner)) count) := by
  unfold read
  rw [hc]
  show (inner.minSize.bind (Quantity.int count).mul).mapError DecodeError.size >>= _ = _
  rw [hl]
  exact if_pos hless

theorem read_array {inner : Schema} {length : Nat} : read (.array inner length) c = .ok (v, c') ↔
    ∃ items, readItems (read inner) length c = .ok (items, c') ∧ Value.list items = v := by
  simp [read, and_comm]

/-! ### Records and unions -/

theorem readFields_nil {entries : Entries} :
    readFields [] c = .ok (entries, c') ↔ [] = entries ∧ c = c' := by
  simp [readFields]

theorem readFields_cons {name : Text} {s : Schema} {fields : List (Text × Schema)}
    {entries : Entries} :
    readFields ((name, s) :: fields) c = .ok (entries, c') ↔ ∃ v c₁ rest, read s c = .ok (v, c₁) ∧
      readFields fields c₁ = .ok (rest, c') ∧ (.text name, v) :: rest = entries := by
  simp only [readFields, bind_eq_ok, Prod.exists, pure_def, Except.ok.injEq, Prod.mk.injEq]
  constructor
  · rintro ⟨v, c₁, h, rest, c₂, hr, rfl, rfl⟩
    exact ⟨v, c₁, rest, h, hr, rfl⟩
  · rintro ⟨v, c₁, rest, h, hr, rfl⟩
    exact ⟨v, c₁, h, rest, c', hr, rfl, rfl⟩

theorem readFields_append {fields later : List (Text × Schema)} {entries : Entries} :
    readFields (fields ++ later) c = .ok (entries, c') ↔ ∃ front c₁ back,
      readFields fields c = .ok (front, c₁) ∧ readFields later c₁ = .ok (back, c') ∧
      front ++ back = entries := by
  induction fields generalizing c entries with
  | nil => simp [readFields_nil]
  | cons f fields ih =>
    obtain ⟨name, s⟩ := f
    rw [List.cons_append]
    simp only [readFields_cons, ih]
    constructor
    · rintro ⟨v, c₁, _, h, ⟨front, c₂, back, hf, hb, rfl⟩, rfl⟩
      exact ⟨(.text name, v) :: front, c₂, back, ⟨v, c₁, front, h, hf, rfl⟩, hb, rfl⟩
    · rintro ⟨_, c₂, back, ⟨v, c₁, front, h, hf, rfl⟩, hb, rfl⟩
      exact ⟨v, c₁, front ++ back, h, ⟨front, c₂, back, hf, hb, rfl⟩, rfl⟩

theorem read_record {fields : List (Text × Schema)} : read (.record fields) c = .ok (v, c') ↔
    ∃ entries, readFields fields c = .ok (entries, c') ∧ Value.map entries = v := by
  simp [read, and_comm]

theorem readVariant_eq (variants : List (Text × Schema)) (index : Nat) (c : Cursor) :
    readVariant variants index c = variants[index]?.map fun variant =>
      (read variant.2 c).map fun (payload, c) => (.map [(.text variant.1, payload)], c) := by
  induction variants generalizing index with
  | nil => rfl
  | cons variant variants ih =>
    cases index with
    | zero => rfl
    | succ index => simpa [readVariant] using ih index

theorem read_union {variants : List (Text × Schema)} : read (.union variants) c = .ok (v, c') ↔
    ∃ tag c₁ name s payload, c.next = .ok (tag, c₁) ∧ variants[tag.toNat]? = some (name, s) ∧
      read s c₁ = .ok (payload, c') ∧ Value.map [(.text name, payload)] = v := by
  simp only [read, bind_eq_ok, Prod.exists, readVariant_eq]
  constructor
  · rintro ⟨tag, c₁, ht, h⟩
    cases hv : variants[tag.toNat]? with
    | none => simp [hv] at h
    | some variant =>
      simp only [hv, Option.map_some, Option.getD_some, map_eq_ok, Prod.exists] at h
      obtain ⟨payload, c₂, hp, h⟩ := h
      cases h
      exact ⟨tag, c₁, variant.1, variant.2, payload, ht, hv, hp, rfl⟩
  · rintro ⟨tag, c₁, name, s, payload, ht, hv, hp, rfl⟩
    exact ⟨tag, c₁, ht, by simp [hv, hp, Except.map]⟩

/-! ### What is written is taken -/

/-- The bytes of an integer tell it again. -/
theorem toInt_ofIntLE {w : Width} {signed : Bool} {n : Int}
    (h : w.minInt signed ≤ n ∧ n ≤ w.maxInt signed) :
    (if signed then (Bytes.ofIntLE w.bytes n).toIntLE else (Bytes.ofIntLE w.bytes n).toNatLE) = n := by
  cases signed with
  | false =>
    obtain ⟨h1, h2⟩ := (w.unsigned_range n).mp h
    rw [if_neg (by decide), Bytes.toNatLE_ofIntLE h1 h2]
  | true =>
    obtain ⟨h1, h2⟩ := (w.signed_range n).mp h
    rw [if_pos rfl, Bytes.toIntLE_ofIntLE h1 h2]

theorem takes_integer {w : Width} {signed : Bool} {n : Int}
    (h : w.minInt signed ≤ n ∧ n ≤ w.maxInt signed) (rest : Bytes) :
    Takes (read (.integer w signed)) (Bytes.ofIntLE w.bytes n) (.int n) rest := by
  intro offset
  have hl := Bytes.length_ofIntLE w.bytes n
  exact read_integer.mpr ⟨_, Cursor.take_eq_ok.mpr ⟨hl, rfl, by rw [hl]⟩,
    congrArg Value.int (toInt_ofIntLE h)⟩

theorem takes_bool (b : Bool) (rest : Bytes) :
    Takes (read .bool) [if b then 1 else 0] (.bool b) rest := by
  intro offset
  refine read_bool.mpr ⟨if b then 1 else 0, Cursor.next_eq_ok.mpr ⟨rfl, rfl⟩, ?_⟩
  cases b <;> exact ⟨by decide, rfl⟩

/-- A length is read and then just so many bytes. -/
theorem length_take {body : Bytes} (h : body.length ≤ maxLength) (offset : Nat) (rest : Bytes) :
    Cursor.length ⟨offset, (Bytes.ofNatLE lengthSize body.length ++ body) ++ rest⟩ =
        .ok (body.length, ⟨offset + lengthSize, body ++ rest⟩) ∧
      Cursor.take ⟨offset + lengthSize, body ++ rest⟩ body.length = .ok (body,
        ⟨offset + (Bytes.ofNatLE lengthSize body.length ++ body).length, rest⟩) := by
  rw [List.append_assoc, Cursor.length_ofNatLE h]
  refine ⟨rfl, Cursor.take_eq_ok.mpr ⟨rfl, rfl, ?_⟩⟩
  simp [Nat.add_assoc]

theorem takes_text {t : Text} {body : Bytes} (ht : Utf8.encode t = .ok body)
    (h : body.length ≤ maxLength) (rest : Bytes) :
    Takes (read .text) (Bytes.ofNatLE lengthSize body.length ++ body) (.text t) rest := by
  intro offset
  obtain ⟨h1, h2⟩ := length_take h offset rest
  exact read_text.mpr ⟨_, _, body, t, h1, h2, Utf8.decode_encode ht, rfl⟩

theorem takes_bytes {body : Bytes} (h : body.length ≤ maxLength) (rest : Bytes) :
    Takes (read .bytes) (Bytes.ofNatLE lengthSize body.length ++ body) (.bytes body) rest := by
  intro offset
  obtain ⟨h1, h2⟩ := length_take h offset rest
  exact read_bytes.mpr ⟨_, _, body, h1, h2, rfl⟩

theorem takes_fixedBytes {length : Nat} {body : Bytes} (h : body.length = length) (rest : Bytes) :
    Takes (read (.fixedBytes length)) body (.bytes body) rest := by
  intro offset
  exact read_fixedBytes.mpr ⟨body, Cursor.take_eq_ok.mpr ⟨h, rfl, by rw [h]⟩, rfl⟩

theorem takes_none (inner : Schema) (rest : Bytes) :
    Takes (read (.option inner)) [0] .none rest := by
  intro offset
  exact read_option.mpr (.inl ⟨Cursor.next_eq_ok.mpr ⟨rfl, rfl⟩, rfl⟩)

theorem takes_some {inner : Schema} {window rest : Bytes} (h : Takes (read inner) window v rest) :
    Takes (read (.option inner)) (1 :: window) v rest := by
  intro offset
  refine read_option.mpr (.inr ⟨⟨offset + 1, window ++ rest⟩, Cursor.next_eq_ok.mpr ⟨rfl, rfl⟩, ?_⟩)
  rw [h (offset + 1), List.length_cons, Nat.add_assoc, Nat.add_comm 1]

/-- Items are taken if each is, wherever at least as much comes after it as comes after the last. -/
theorem takes_items {f : Reader Value} {items : List Value} {parts : List Bytes} {rest : Bytes}
    (h : List.Forall₂ (fun item part => ∀ rest', rest.length ≤ rest'.length → f.Takes part item rest')
      items parts) :
    Takes (readItems f items.length) parts.flatten items rest := by
  induction h with
  | nil => intro offset; simp [readItems]
  | @cons item part items parts hi hs ih =>
    intro offset
    refine readItems_succ.mpr ⟨item, ⟨offset + part.length, parts.flatten ++ rest⟩, items, ?_, ?_, rfl⟩
    · have := hi (parts.flatten ++ rest) (by simp) offset
      rwa [← List.append_assoc] at this
    · rw [ih (offset + part.length), List.flatten_cons, List.length_append, Nat.add_assoc]

theorem takes_vec {inner : Schema} (items : List Value) {body rest : Bytes}
    (hl : items.length ≤ maxLength) (ha : inner.Admits items.length (body.length + rest.length))
    (h : Takes (readItems (read inner) items.length) body items rest) :
    Takes (read (.vec inner)) (Bytes.ofNatLE lengthSize items.length ++ body) (.list items) rest := by
  intro offset
  refine read_vec.mpr ⟨items.length, ⟨offset + lengthSize, body ++ rest⟩, items, ?_,
    by simpa using ha, ?_, rfl⟩
  · rw [List.append_assoc, Cursor.length_ofNatLE hl]
  · rw [h (offset + lengthSize), List.length_append, Bytes.length_ofNatLE, Nat.add_assoc]

theorem takes_array {inner : Schema} (items : List Value) {body rest : Bytes}
    (h : Takes (readItems (read inner) items.length) body items rest) :
    Takes (read (.array inner items.length)) body (.list items) rest :=
  fun offset => read_array.mpr ⟨items, h offset, rfl⟩

theorem takes_fields_cons {r : Row} {rows : List Row} {rest : Bytes}
    (hr : Takes (read r.schema) r.bytes r.value ((rows.map (·.bytes)).flatten ++ rest))
    (hs : Takes (readFields (rows.map Row.field)) (rows.map (·.bytes)).flatten (rows.map Row.entry)
      rest) :
    Takes (readFields ((r :: rows).map Row.field)) ((r :: rows).map (·.bytes)).flatten
      ((r :: rows).map Row.entry) rest := by
  intro offset
  refine readFields_cons.mpr ⟨r.value,
    ⟨offset + r.bytes.length, (rows.map (·.bytes)).flatten ++ rest⟩, rows.map Row.entry, ?_, ?_, rfl⟩
  · have := hr offset
    rwa [← List.append_assoc] at this
  · rw [hs (offset + r.bytes.length), List.map_cons, List.flatten_cons, List.length_append,
      Nat.add_assoc]

theorem takes_fields_append {fields later : List (Text × Schema)} {front back : Bytes}
    {entries entries' : Entries} {rest : Bytes}
    (hf : Takes (readFields fields) front entries (back ++ rest))
    (hb : Takes (readFields later) back entries' rest) :
    Takes (readFields (fields ++ later)) (front ++ back) (entries ++ entries') rest := by
  intro offset
  refine readFields_append.mpr
    ⟨entries, ⟨offset + front.length, back ++ rest⟩, entries', ?_, ?_, rfl⟩
  · rw [List.append_assoc]
    exact hf offset
  · rw [hb (offset + front.length), List.length_append, Nat.add_assoc]

theorem takes_record {rows : List Row} {rest : Bytes}
    (h : Takes (readFields (rows.map Row.field)) (rows.map (·.bytes)).flatten (rows.map Row.entry)
      rest) :
    Takes (read (.record (rows.map Row.field))) (rows.map (·.bytes)).flatten
      (.map (rows.map Row.entry)) rest :=
  fun offset => read_record.mpr ⟨_, h offset, rfl⟩

theorem takes_union {variants : List (Text × Schema)} {index : Nat} {name : Text} {s : Schema}
    {payload : Value} {window rest : Bytes} (hl : variants.length ≤ 256)
    (hv : variants[index]? = some (name, s)) (h : Takes (read s) window payload rest) :
    Takes (read (.union variants)) (UInt8.ofNat index :: window) (.map [(.text name, payload)])
      rest := by
  intro offset
  have hi : index < variants.length := (List.getElem?_eq_some_iff.mp hv).1
  have htag : (UInt8.ofNat index).toNat = index := Utf8.toNat_ofNat (by omega)
  refine read_union.mpr ⟨UInt8.ofNat index, ⟨offset + 1, window ++ rest⟩, name, s, payload,
    Cursor.next_eq_ok.mpr ⟨rfl, rfl⟩, by rw [htag, hv], ?_, rfl⟩
  rw [h (offset + 1), List.length_cons, Nat.add_assoc, Nat.add_comm 1]

end Schema

end LedgerWire
