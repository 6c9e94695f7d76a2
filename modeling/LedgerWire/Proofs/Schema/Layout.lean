import LedgerWire.Proofs.Schema.Reading

/-!
# Layouts

`Schema.Layout` is the grammar of the wire: which bytes lay a value out by a schema. What is written is
a layout, and what is read is one; the two differ in what they let through, and that is a parameter.
A layout of an optional value around an optional value may be longer than what is written for it.
-/

namespace LedgerWire

namespace Schema

/-- What a layout may hold. -/
structure Rules where
  /-- So many items of a schema may stand in one list. -/
  counts : Schema → Nat → Prop
  /-- An optional value may hold nothing inside. -/
  loose : Prop

def AnyCount : Schema → Nat → Prop := fun _ _ => True

/-- Enough bytes would let so many items through. -/
def Passable (inner : Schema) (count : Nat) : Prop := ∃ left, inner.Admits count left

namespace Rules

def written : Rules := ⟨AnyCount, False⟩

def seen : Rules := ⟨Passable, True⟩

/-- The same without anything longer than it has to be. -/
def tight (r : Rules) : Rules := ⟨r.counts, False⟩

end Rules

mutual

inductive Layout (r : Rules) : Schema → Value → Bytes → Prop
  | integer {w : Width} {signed : Bool} {n : Int} (range : w.minInt signed ≤ n ∧ n ≤ w.maxInt signed) :
    Layout r (.integer w signed) (.int n) (Bytes.ofIntLE w.bytes n)
  | bool (b : Bool) : Layout r .bool (.bool b) [if b then 1 else 0]
  | text {t : Text} {body : Bytes} (utf8 : Utf8.encode t = .ok body) (fits : body.length ≤ maxLength) :
    Layout r .text (.text t) (Bytes.ofNatLE lengthSize body.length ++ body)
  | bytes {body : Bytes} (fits : body.length ≤ maxLength) :
    Layout r .bytes (.bytes body) (Bytes.ofNatLE lengthSize body.length ++ body)
  | fixedBytes (body : Bytes) : Layout r (.fixedBytes body.length) (.bytes body) body
  | none (inner : Schema) : Layout r (.option inner) .none [0]
  | some {inner : Schema} {v : Value} {body : Bytes} (tight : v = .none → r.loose)
    (payload : Layout r inner v body) : Layout r (.option inner) v (1 :: body)
  | vec {inner : Schema} {items : List Value} {body : Bytes} (fits : items.length ≤ maxLength)
    (count : r.counts inner items.length) (parts : LayoutItems r inner items body) :
    Layout r (.vec inner) (.list items) (Bytes.ofNatLE lengthSize items.length ++ body)
  | array {inner : Schema} {items : List Value} {body : Bytes}
    (parts : LayoutItems r inner items body) :
    Layout r (.array inner items.length) (.list items) body
  | record {fields : List (Text × Schema)} {entries : Entries} {body : Bytes}
    (parts : LayoutFields r fields entries body) : Layout r (.record fields) (.map entries) body
  | union {variants : List (Text × Schema)} {index : Nat} {name : Text} {s : Schema}
    {payload : Value} {body : Bytes} (variant : variants[index]? = .some (name, s))
    (part : Layout r s payload body) :
    Layout r (.union variants) (.map [(.text name, payload)]) (UInt8.ofNat index :: body)

/-- Items one after the other. -/
inductive LayoutItems (r : Rules) : Schema → List Value → Bytes → Prop
  | nil (inner : Schema) : LayoutItems r inner [] []
  | cons {inner : Schema} {item : Value} {items : List Value} {front back : Bytes}
    (head : Layout r inner item front) (tail : LayoutItems r inner items back) :
    LayoutItems r inner (item :: items) (front ++ back)

/-- The fields in their order. -/
inductive LayoutFields (r : Rules) : List (Text × Schema) → Entries → Bytes → Prop
  | nil : LayoutFields r [] [] []
  | cons {name : Text} {s : Schema} {v : Value} {fields : List (Text × Schema)} {entries : Entries}
    {front back : Bytes} (head : Layout r s v front) (tail : LayoutFields r fields entries back) :
    LayoutFields r ((name, s) :: fields) ((.text name, v) :: entries) (front ++ back)

end

variable {r : Rules} {s inner : Schema} {fields : List (Text × Schema)} {v : Value} {bs : Bytes}

theorem layoutItems_iff {items : List Value} :
    LayoutItems r inner items bs ↔
      ∃ parts, List.Forall₂ (Layout r inner) items parts ∧ parts.flatten = bs := by
  induction items generalizing bs with
  | nil =>
    constructor
    · rintro ⟨⟩
      exact ⟨[], .nil, rfl⟩
    · rintro ⟨_, ⟨⟩, rfl⟩
      exact .nil inner
  | cons item items ih =>
    constructor
    · intro h
      cases h with
      | cons head tail =>
        obtain ⟨parts, hp, rfl⟩ := ih.mp tail
        exact ⟨_ :: parts, .cons head hp, rfl⟩
    · rintro ⟨_, _ | ⟨head, hp⟩, rfl⟩
      exact .cons head (ih.mpr ⟨_, hp, rfl⟩)

theorem layoutFields_iff {entries : Entries} :
    LayoutFields r fields entries bs ↔ ∃ rows : List Row, rows.map Row.field = fields ∧
      rows.map Row.entry = entries ∧ (∀ row ∈ rows, Layout r row.schema row.value row.bytes) ∧
      (rows.map (·.bytes)).flatten = bs := by
  induction fields generalizing entries bs with
  | nil =>
    constructor
    · rintro ⟨⟩
      exact ⟨[], rfl, rfl, by simp, rfl⟩
    · rintro ⟨rows, hf, rfl, -, rfl⟩
      obtain rfl := List.map_eq_nil_iff.mp hf
      exact .nil
  | cons f fields ih =>
    constructor
    · intro h
      cases h with
      | @cons name s v _ entries front back head tail =>
        obtain ⟨rows, rfl, rfl, hr, rfl⟩ := ih.mp tail
        exact ⟨⟨name, s, v, front⟩ :: rows, rfl, rfl, List.forall_mem_cons.mpr ⟨head, hr⟩, rfl⟩
    · rintro ⟨rows, hf, rfl, hr, rfl⟩
      obtain ⟨row, rows, rfl, rfl, rfl⟩ := List.map_eq_cons_iff.mp hf
      obtain ⟨head, hr⟩ := List.forall_mem_cons.mp hr
      exact .cons head (ih.mpr ⟨rows, rfl, rfl, hr, rfl⟩)

/-- A layout of an unsigned integer holds a natural number. -/
theorem natural_of_layout {w : Width} (h : Layout r (.integer w false) v bs) :
    ∃ n : Nat, v = .int n ∧ n < 256 ^ w.bytes ∧ bs = Bytes.ofNatLE w.bytes n := by
  cases h with
  | @integer _ _ n range =>
    obtain ⟨n, rfl, hlt⟩ := (w.natural_range n).mp range
    exact ⟨n, rfl, hlt, Bytes.ofIntLE_ofNat w.bytes n hlt⟩

/-! ### Layouts and what is written -/

/-- A layout with nothing longer than it has to be is what is written. -/
theorem encode_of_layout (hs : s.all isSound) (hr : ¬ r.loose) (h : Layout r s v bs) :
    encode s v = .ok bs := by
  induction s generalizing v bs with
  | integer w signed =>
    cases h with
    | integer range => exact encode_integer.mpr ⟨_, rfl, range, rfl⟩
  | floatInteger w signed => cases h
  | bool =>
    cases h with
    | bool b => exact encode_bool.mpr ⟨b, rfl, rfl⟩
  | text =>
    cases h with
    | text utf8 fits => exact encode_text.mpr ⟨_, _, rfl, utf8, fits, rfl⟩
  | bytes =>
    cases h with
    | bytes fits => exact encode_bytes.mpr ⟨_, .inl rfl, fits, rfl⟩
  | fixedBytes length =>
    cases h with
    | fixedBytes => exact encode_fixedBytes.mpr ⟨.inl rfl, rfl⟩
  | option inner ih =>
    cases h with
    | none => exact encode_option_none
    | some tight payload =>
      exact encode_option.mpr (.inr ⟨fun hv => hr (tight hv), _, ih (all_option hs) payload, rfl⟩)
  | vec inner ih =>
    cases h with
    | vec fits count parts =>
      obtain ⟨bodies, hp, rfl⟩ := layoutItems_iff.mp parts
      exact encode_vec.mpr ⟨_, bodies, rfl, fits, hp.imp fun _ _ => ih (all_vec hs), rfl⟩
  | array inner length ih =>
    cases h with
    | array parts =>
      obtain ⟨bodies, hp, rfl⟩ := layoutItems_iff.mp parts
      exact encode_array.mpr ⟨_, bodies, rfl, rfl, hp.imp fun _ _ => ih (all_array hs), rfl⟩
  | record fields ih =>
    cases h with
    | record parts =>
      obtain ⟨rows, rfl, rfl, hrows, rfl⟩ := layoutFields_iff.mp parts
      refine (encode_record (nodup_of_record hs)).mpr ⟨_, rows, rfl, rfl, fun row hrow => ?_, .refl _,
        rfl⟩
      have hmem := List.mem_map_of_mem (f := Row.field) hrow
      exact ih _ hmem (all_record hs _ hmem) (hrows row hrow)
  | union variants ih =>
    cases h with
    | union variant part =>
      have hmem := List.mem_of_getElem? variant
      exact (encode_union (nodup_of_union hs)).mpr ⟨_, _, _, _, _, variant, rfl,
        ih _ hmem (all_union hs _ hmem) part, rfl⟩

/-! ### Layouts that are longer than what is written -/

theorem option_of_layout_none (h : Layout r s .none bs) : ∃ inner, s = .option inner := by
  cases h with
  | none inner => exact ⟨inner, rfl⟩
  | some => exact ⟨_, rfl⟩

theorem tighten_items {items : List Value} {parts : List Bytes}
    (ih : ∀ {v bs}, Layout r inner v bs → ∃ tight, Layout r.tight inner v tight ∧
      tight.length ≤ bs.length ∧ (inner.all isFlat → tight = bs))
    (h : List.Forall₂ (Layout r inner) items parts) :
    ∃ tights, List.Forall₂ (Layout r.tight inner) items tights ∧
      tights.flatten.length ≤ parts.flatten.length ∧ (inner.all isFlat → tights = parts) := by
  induction h with
  | nil => exact ⟨[], .nil, le_refl _, fun _ => rfl⟩
  | cons head tail iht =>
    obtain ⟨tight, h₁, hle₁, heq₁⟩ := ih head
    obtain ⟨tights, h₂, hle₂, heq₂⟩ := iht
    refine ⟨tight :: tights, .cons h₁ h₂, ?_, fun hf => by rw [heq₁ hf, heq₂ hf]⟩
    simp only [List.flatten_cons, List.length_append]
    omega

theorem tighten_fields {entries : Entries}
    (ih : ∀ f ∈ fields, ∀ {v bs}, Layout r f.2 v bs → ∃ tight, Layout r.tight f.2 v tight ∧
      tight.length ≤ bs.length ∧ (f.2.all isFlat → tight = bs))
    (h : LayoutFields r fields entries bs) :
    ∃ tight, LayoutFields r.tight fields entries tight ∧ tight.length ≤ bs.length ∧
      ((∀ f ∈ fields, f.2.all isFlat) → tight = bs) := by
  induction fields generalizing entries bs with
  | nil =>
    cases h with
    | nil => exact ⟨[], .nil, le_refl _, fun _ => rfl⟩
  | cons f fields ihf =>
    cases h with
    | cons head tail =>
      obtain ⟨front, h₁, hle₁, heq₁⟩ := ih _ List.mem_cons_self head
      obtain ⟨back, h₂, hle₂, heq₂⟩ := ihf (fun g hg => ih g (List.mem_cons_of_mem _ hg)) tail
      refine ⟨front ++ back, .cons h₁ h₂, ?_, fun hf => ?_⟩
      · simp only [List.length_append]
        omega
      · obtain ⟨hhead, htail⟩ := List.forall_mem_cons.mp hf
        rw [heq₁ hhead, heq₂ htail]

/-- The value of a layout has one that is as short as can be; only an optional value around an
optional value makes a difference. -/
theorem tighten (h : Layout r s v bs) :
    ∃ tight, Layout r.tight s v tight ∧ tight.length ≤ bs.length ∧ (s.all isFlat → tight = bs) := by
  induction s generalizing v bs with
  | integer w signed =>
    cases h with
    | integer range => exact ⟨_, .integer range, le_refl _, fun _ => rfl⟩
  | floatInteger w signed => cases h
  | bool =>
    cases h with
    | bool b => exact ⟨_, .bool b, le_refl _, fun _ => rfl⟩
  | text =>
    cases h with
    | text utf8 fits => exact ⟨_, .text utf8 fits, le_refl _, fun _ => rfl⟩
  | bytes =>
    cases h with
    | bytes fits => exact ⟨_, .bytes fits, le_refl _, fun _ => rfl⟩
  | fixedBytes length =>
    cases h with
    | fixedBytes => exact ⟨_, .fixedBytes _, le_refl _, fun _ => rfl⟩
  | option inner ih =>
    cases h with
    | none => exact ⟨_, .none inner, le_refl _, fun _ => rfl⟩
    | some _ payload =>
      obtain ⟨tight, ht, hle, heq⟩ := ih payload
      by_cases hv : v = .none
      · -- Nothing is written at once, where the layout has a flag in front of it.
        subst hv
        obtain ⟨inner', rfl⟩ := option_of_layout_none payload
        refine ⟨[0], .none _, by simp, fun hf => ?_⟩
        exact absurd (all_self hf) (by simp [isFlat])
      · refine ⟨1 :: tight, .some (fun h => absurd h hv) ht, ?_, fun hf => ?_⟩
        · simpa using hle
        · rw [heq (all_option hf)]
  | vec inner ih =>
    cases h with
    | vec fits count parts =>
      obtain ⟨parts, hp, rfl⟩ := layoutItems_iff.mp parts
      obtain ⟨tights, ht, hle, heq⟩ := tighten_items ih hp
      refine ⟨_, .vec fits count (layoutItems_iff.mpr ⟨tights, ht, rfl⟩), ?_, fun hf => ?_⟩
      · simp only [List.length_append]
        omega
      · rw [heq (all_vec hf)]
  | array inner length ih =>
    cases h with
    | array parts =>
      obtain ⟨parts, hp, rfl⟩ := layoutItems_iff.mp parts
      obtain ⟨tights, ht, hle, heq⟩ := tighten_items ih hp
      exact ⟨_, .array (layoutItems_iff.mpr ⟨tights, ht, rfl⟩), hle, fun hf => by
        rw [heq (all_array hf)]⟩
  | record fields ih =>
    cases h with
    | record parts =>
      obtain ⟨tight, ht, hle, heq⟩ := tighten_fields ih parts
      exact ⟨tight, .record ht, hle, fun hf => heq (all_record hf)⟩
  | union variants ih =>
    cases h with
    | union variant part =>
      have hmem := List.mem_of_getElem? variant
      obtain ⟨tight, ht, hle, heq⟩ := ih _ hmem part
      refine ⟨_, .union variant ht, ?_, fun hf => by rw [heq (all_union hf _ hmem)]⟩
      simpa using hle

/-! ### Layouts and what is read -/

theorem layout_of_readItems {items : List Value} {count : Nat} {c c' : Cursor}
    (ih : ∀ {v c c'}, read inner c = .ok (v, c') →
      ∃ window, c.Passes window c' ∧ Layout r inner v window)
    (h : readItems (read inner) count c = .ok (items, c')) :
    items.length = count ∧ ∃ body, c.Passes body c' ∧ LayoutItems r inner items body := by
  induction count generalizing c items with
  | zero =>
    obtain ⟨rfl, rfl⟩ := readItems_zero.mp h
    exact ⟨rfl, [], .refl c, .nil inner⟩
  | succ count ihc =>
    obtain ⟨item, c₁, rest, h₁, h₂, rfl⟩ := readItems_succ.mp h
    obtain ⟨front, hfront, head⟩ := ih h₁
    obtain ⟨hl, back, hback, tail⟩ := ihc h₂
    exact ⟨congrArg (· + 1) hl, front ++ back, hfront.append hback, .cons head tail⟩

theorem layout_of_readFields {entries : Entries} {c c' : Cursor}
    (ih : ∀ f ∈ fields, ∀ {v c c'}, read f.2 c = .ok (v, c') →
      ∃ window, c.Passes window c' ∧ Layout r f.2 v window)
    (h : readFields fields c = .ok (entries, c')) :
    ∃ body, c.Passes body c' ∧ LayoutFields r fields entries body := by
  induction fields generalizing c entries with
  | nil =>
    obtain ⟨rfl, rfl⟩ := readFields_nil.mp h
    exact ⟨[], .refl c, .nil⟩
  | cons f fields ihf =>
    obtain ⟨v, c₁, rest, h₁, h₂, rfl⟩ := readFields_cons.mp h
    obtain ⟨front, hfront, head⟩ := ih f List.mem_cons_self h₁
    obtain ⟨back, hback, tail⟩ := ihf (fun g hg => ih g (List.mem_cons_of_mem f hg)) h₂
    exact ⟨front ++ back, hfront.append hback, .cons head tail⟩

/-- Any bytes of a width are an integer of that width. -/
theorem layout_of_raw {w : Width} {signed : Bool} {raw : Bytes} (hl : raw.length = w.bytes) :
    Layout r (.integer w signed) (.int (if signed then raw.toIntLE else raw.toNatLE)) raw := by
  cases signed with
  | false =>
    have hlt := Bytes.toNatLE_lt raw
    rw [hl] at hlt
    have range := (w.natural_range raw.toNatLE).mpr ⟨_, rfl, hlt⟩
    have := Layout.integer (r := r) range
    rwa [← hl, Bytes.ofIntLE_toNatLE] at this
  | true =>
    have range := (w.signed_range raw.toIntLE).mpr (hl ▸ Bytes.toIntLE_bounds raw)
    have := Layout.integer (r := r) range
    rwa [← hl, Bytes.ofIntLE_toIntLE] at this

theorem layout_of_flag {b : UInt8} (h : b.toNat ≤ 1) : Layout r .bool (.bool (b.toNat == 1)) [b] := by
  have : b = 0 ∨ b = 1 := by
    rw [← UInt8.toNat_inj, ← UInt8.toNat_inj]
    exact Nat.le_one_iff_eq_zero_or_eq_one.mp h
  rcases this with rfl | rfl
  · exact .bool false
  · exact .bool true

/-- A value is read from a layout of it, at the front of what is left. -/
theorem layout_of_read {c c' : Cursor} (h : read s c = .ok (v, c')) :
    ∃ window, c.Passes window c' ∧ Layout .seen s v window := by
  induction s generalizing v c c' with
  | integer w signed =>
    obtain ⟨raw, ht, rfl⟩ := read_integer.mp h
    obtain ⟨hl, hraw⟩ := Cursor.Passes.of_take ht
    exact ⟨raw, hraw, layout_of_raw hl⟩
  | floatInteger w signed => exact absurd h read_floatInteger
  | bool =>
    obtain ⟨b, hn, hb, rfl⟩ := read_bool.mp h
    exact ⟨[b], .of_next hn, layout_of_flag hb⟩
  | text =>
    obtain ⟨n, c₁, raw, t, h₁, h₂, ht, rfl⟩ := read_text.mp h
    obtain ⟨hn, hlength⟩ := Cursor.Passes.of_length h₁
    obtain ⟨rfl, hraw⟩ := Cursor.Passes.of_take h₂
    exact ⟨_, hlength.append hraw, .text (Utf8.encode_decode ht) hn⟩
  | bytes =>
    obtain ⟨n, c₁, raw, h₁, h₂, rfl⟩ := read_bytes.mp h
    obtain ⟨hn, hlength⟩ := Cursor.Passes.of_length h₁
    obtain ⟨rfl, hraw⟩ := Cursor.Passes.of_take h₂
    exact ⟨_, hlength.append hraw, .bytes hn⟩
  | fixedBytes length =>
    obtain ⟨raw, ht, rfl⟩ := read_fixedBytes.mp h
    obtain ⟨rfl, hraw⟩ := Cursor.Passes.of_take ht
    exact ⟨raw, hraw, .fixedBytes raw⟩
  | option inner ih =>
    rcases read_option.mp h with ⟨hn, rfl⟩ | ⟨c₁, h₁, h₂⟩
    · exact ⟨[0], .of_next hn, .none inner⟩
    · obtain ⟨body, hbody, payload⟩ := ih h₂
      exact ⟨1 :: body, (Cursor.Passes.of_next h₁).append hbody, .some (fun _ => trivial) payload⟩
  | vec inner ih =>
    obtain ⟨count, c₁, items, h₁, ha, h₂, rfl⟩ := read_vec.mp h
    obtain ⟨hn, hlength⟩ := Cursor.Passes.of_length h₁
    obtain ⟨rfl, body, hbody, parts⟩ := layout_of_readItems ih h₂
    exact ⟨_, hlength.append hbody, .vec hn ⟨_, ha⟩ parts⟩
  | array inner length ih =>
    obtain ⟨items, hi, rfl⟩ := read_array.mp h
    obtain ⟨rfl, body, hbody, parts⟩ := layout_of_readItems ih hi
    exact ⟨body, hbody, .array parts⟩
  | record fields ih =>
    obtain ⟨entries, hf, rfl⟩ := read_record.mp h
    obtain ⟨body, hbody, parts⟩ := layout_of_readFields ih hf
    exact ⟨body, hbody, .record parts⟩
  | union variants ih =>
    obtain ⟨tag, c₁, name, s, payload, h₁, hv, h₂, rfl⟩ := read_union.mp h
    obtain ⟨body, hbody, part⟩ := ih _ (List.mem_of_getElem? hv) h₂
    have := Layout.union (r := .seen) hv part
    rw [UInt8.ofNat_toNat] at this
    exact ⟨tag :: body, (Cursor.Passes.of_next h₁).append hbody, this⟩

end Schema

end LedgerWire
