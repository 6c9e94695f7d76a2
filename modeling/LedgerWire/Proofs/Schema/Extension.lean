import LedgerWire.Proofs.Schema.Canonical

/-!
# Schemas that grow

`Schema.Extends` says that a schema has grown by new variants at the end of unions, at any depth. What
is written by the old schema is written by the new one in the same bytes. What is read by the old one is
read by the new one as the same value, unless a list is refused for the number of its items; where every
list is let through, and so wherever the widths were given as integers, nothing is refused.
-/

namespace LedgerWire

namespace Schema

open Reader

mutual

/-- The second schema is the first one with new variants at the end of unions. -/
inductive Extends : Schema → Schema → Prop
  | integer (w : Width) (signed : Bool) : Extends (.integer w signed) (.integer w signed)
  | floatInteger (w : Width) (signed : Bool) :
    Extends (.floatInteger w signed) (.floatInteger w signed)
  | bool : Extends .bool .bool
  | text : Extends .text .text
  | bytes : Extends .bytes .bytes
  | fixedBytes (length : Nat) : Extends (.fixedBytes length) (.fixedBytes length)
  | option {s s' : Schema} (inner : Extends s s') : Extends (.option s) (.option s')
  | vec {s s' : Schema} (inner : Extends s s') : Extends (.vec s) (.vec s')
  | array {s s' : Schema} (inner : Extends s s') (length : Nat) :
    Extends (.array s length) (.array s' length)
  | record {fields fields' : List (Text × Schema)} (each : ExtendsFields fields fields') :
    Extends (.record fields) (.record fields')
  | union {variants variants' : List (Text × Schema)} (each : ExtendsFields variants variants')
    (new : List (Text × Schema)) : Extends (.union variants) (.union (variants' ++ new))

/-- The same names, each with a schema that has grown. -/
inductive ExtendsFields : List (Text × Schema) → List (Text × Schema) → Prop
  | nil : ExtendsFields [] []
  | cons {name : Text} {s s' : Schema} {fields fields' : List (Text × Schema)} (head : Extends s s')
    (tail : ExtendsFields fields fields') :
    ExtendsFields ((name, s) :: fields) ((name, s') :: fields')

end

variable {r : Rules} {s s' inner inner' : Schema} {fields fields' : List (Text × Schema)} {v : Value}
  {bs data : Bytes} {c c' : Cursor} {n : Nat}

theorem extendsFields_refl (ih : ∀ f ∈ fields, Extends f.2 f.2) : ExtendsFields fields fields := by
  induction fields with
  | nil => exact .nil
  | cons f fields ihf =>
    exact .cons (ih f List.mem_cons_self) (ihf fun g hg => ih g (List.mem_cons_of_mem f hg))

theorem Extends.refl (s : Schema) : Extends s s := by
  induction s with
  | integer w signed => exact .integer w signed
  | floatInteger w signed => exact .floatInteger w signed
  | bool => exact .bool
  | text => exact .text
  | bytes => exact .bytes
  | fixedBytes length => exact .fixedBytes length
  | option inner ih => exact .option ih
  | vec inner ih => exact .vec ih
  | array inner length ih => exact .array ih length
  | record fields ih => exact .record (extendsFields_refl ih)
  | union variants ih =>
    have := Extends.union (extendsFields_refl ih) []
    rwa [List.append_nil] at this

/-- A variant stays in its place. -/
theorem ExtendsFields.getElem? {name : Text} {index : Nat} (h : ExtendsFields fields fields')
    (hv : fields[index]? = some (name, s)) :
    ∃ s', fields'[index]? = some (name, s') ∧ Extends s s' := by
  induction fields generalizing fields' index with
  | nil => cases hv
  | cons f fields ih =>
    cases h with
    | cons head tail =>
      cases index with
      | zero =>
        cases hv
        exact ⟨_, rfl, head⟩
      | succ index =>
        obtain ⟨s', hs', hext⟩ := ih tail hv
        exact ⟨s', hs', hext⟩

theorem ExtendsFields.getElem?_append {name : Text} {index : Nat} (h : ExtendsFields fields fields')
    (new : List (Text × Schema)) (hv : fields[index]? = some (name, s)) :
    ∃ s', (fields' ++ new)[index]? = some (name, s') ∧ Extends s s' := by
  obtain ⟨s', hv', hext⟩ := h.getElem? hv
  exact ⟨s', List.getElem?_append_left (List.getElem?_eq_some_iff.mp hv').1 ▸ hv', hext⟩

/-! ### What is written -/

theorem rows_of_extends {rows : List Row} (h : ExtendsFields (rows.map Row.field) fields')
    (ih : ∀ row ∈ rows, ∀ s', Extends row.schema s' → (row.name, s') ∈ fields' →
      encode s' row.value = .ok row.bytes) :
    ∃ rows' : List Row, rows'.map Row.field = fields' ∧ rows'.map Row.entry = rows.map Row.entry ∧
      rows'.map (·.bytes) = rows.map (·.bytes) ∧ ∀ row ∈ rows', row.Encodes := by
  induction rows generalizing fields' with
  | nil =>
    rcases h with ⟨⟩
    exact ⟨[], rfl, rfl, rfl, by simp⟩
  | cons row rows ihr =>
    rcases h with - | @⟨_, _, s', _, fields', head, tail⟩
    obtain ⟨rows', rfl, hentries, hbytes, hrows⟩ := ihr tail fun row' hrow s' hext hmem =>
      ih row' (List.mem_cons_of_mem row hrow) s' hext (List.mem_cons_of_mem _ hmem)
    have hhead := ih row List.mem_cons_self s' head List.mem_cons_self
    refine ⟨⟨row.name, s', row.value, row.bytes⟩ :: rows', rfl, ?_, ?_,
      List.forall_mem_cons.mpr ⟨hhead, hrows⟩⟩
    · rw [List.map_cons, List.map_cons, hentries]
      rfl
    · rw [List.map_cons, List.map_cons, hbytes]

/-- What is written stays as it is. -/
theorem encode_of_extends (hs : s.all isSound) (hs' : s'.all isSound) (hext : Extends s s')
    (h : encode s v = .ok bs) : encode s' v = .ok bs := by
  induction s generalizing s' v bs with
  | option inner ih =>
    cases hext with
    | option hinner =>
      rcases encode_option.mp h with hnone | ⟨hv, body, hb, rfl⟩
      · exact encode_option.mpr (.inl hnone)
      · have hb' := ih (all_option hs) (all_option hs') hinner hb
        exact encode_option.mpr (.inr ⟨hv, body, hb', rfl⟩)
  | vec inner ih =>
    cases hext with
    | vec hinner =>
      obtain ⟨items, parts, rfl, fits, hp, rfl⟩ := encode_vec.mp h
      have hp' := hp.imp fun _ _ => ih (all_vec hs) (all_vec hs') hinner
      exact encode_vec.mpr ⟨items, parts, rfl, fits, hp', rfl⟩
  | array inner length ih =>
    cases hext with
    | array hinner =>
      obtain ⟨items, parts, rfl, hlen, hp, rfl⟩ := encode_array.mp h
      have hp' := hp.imp fun _ _ => ih (all_array hs) (all_array hs') hinner
      exact encode_array.mpr ⟨items, parts, rfl, hlen, hp', rfl⟩
  | record fields ih =>
    cases hext with
    | record hfields =>
      obtain ⟨entries, rows, rfl, rfl, hrows, hperm, rfl⟩ :=
        (encode_record (nodup_of_record hs)).mp h
      obtain ⟨rows', rfl, hentries, hbytes, hrows'⟩ := rows_of_extends hfields
        fun row hrow s' hext hmem => by
          have hfield := List.mem_map_of_mem (f := Row.field) hrow
          exact ih _ hfield (all_record hs _ hfield) (all_record hs' _ hmem) hext (hrows row hrow)
      rw [← hentries] at hperm
      rw [← hbytes]
      exact (encode_record (nodup_of_record hs')).mpr ⟨entries, rows', rfl, rfl, hrows', hperm, rfl⟩
  | union variants ih =>
    cases hext with
    | union hvariants new =>
      obtain ⟨index, name, t, payload, body, hv, rfl, hb, rfl⟩ :=
        (encode_union (nodup_of_union hs)).mp h
      obtain ⟨t', hv', hext'⟩ := hvariants.getElem?_append new hv
      have hmem := List.mem_of_getElem? hv
      have hmem' := List.mem_of_getElem? hv'
      have hb' := ih _ hmem (all_union hs _ hmem) (all_union hs' _ hmem') hext' hb
      exact (encode_union (nodup_of_union hs')).mpr
        ⟨index, name, t', payload, body, hv', rfl, hb', rfl⟩
  | _ =>
    cases hext
    exact h

/-! ### What is read -/

/-- The result is this one, or a list is refused for the number of its items. -/
def OkOrRefused {α : Type} (x : Except DecodeError α) (a : α) : Prop :=
  x = .ok a ∨ ∃ schema count, x = .error (.truncatedItems schema count)

namespace OkOrRefused

variable {α β : Type} {x : Except DecodeError α} {a : α}

theorem bind {f : α → Except DecodeError β} {b : β} (h : OkOrRefused x a)
    (hf : OkOrRefused (f a) b) : OkOrRefused (x >>= f) b := by
  rcases h with rfl | ⟨schema, count, rfl⟩
  · exact hf
  · exact .inr ⟨schema, count, rfl⟩

theorem map (f : α → β) (h : OkOrRefused x a) : OkOrRefused (x.map f) (f a) := by
  rcases h with rfl | ⟨schema, count, rfl⟩
  · exact .inl rfl
  · exact .inr ⟨schema, count, rfl⟩

end OkOrRefused

theorem items_of_extends {f f' : Reader Value} {count : Nat} {items : List Value}
    (hf : ∀ {v c c'}, f c = .ok (v, c') → OkOrRefused (f' c) (v, c'))
    (h : readItems f count c = .ok (items, c')) :
    OkOrRefused (readItems f' count c) (items, c') := by
  induction count generalizing c items with
  | zero => exact .inl h
  | succ count ih =>
    obtain ⟨item, c₁, rest, h₁, h₂, rfl⟩ := readItems_succ.mp h
    exact (hf h₁).bind ((ih h₂).bind (.inl rfl))

theorem fields_of_extends {entries : Entries} (hext : ExtendsFields fields fields')
    (ih : ∀ f ∈ fields, ∀ {s' v c c'}, Extends f.2 s' → (f.1, s') ∈ fields' →
      read f.2 c = .ok (v, c') → OkOrRefused (read s' c) (v, c'))
    (h : readFields fields c = .ok (entries, c')) :
    OkOrRefused (readFields fields' c) (entries, c') := by
  induction fields generalizing fields' c entries with
  | nil =>
    cases hext
    exact .inl h
  | cons f fields ihf =>
    cases hext with
    | cons head tail =>
      obtain ⟨v, c₁, rest, h₁, h₂, rfl⟩ := readFields_cons.mp h
      have hhead := ih _ List.mem_cons_self head List.mem_cons_self h₁
      have htail := ihf tail (fun g hg _ _ _ _ hext hmem =>
        ih g (List.mem_cons_of_mem _ hg) hext (List.mem_cons_of_mem _ hmem)) h₂
      exact hhead.bind (htail.bind (.inl rfl))

/-- What is read is read again as the same value, unless a list is refused. -/
theorem read_of_extends (hs' : s'.all isSound) (hext : Extends s s')
    (h : read s c = .ok (v, c')) : OkOrRefused (read s' c) (v, c') := by
  induction s generalizing s' v c c' with
  | option inner ih =>
    cases hext with
    | option hinner =>
      rcases read_option.mp h with hnone | ⟨c₁, hflag, hread⟩
      · exact .inl (read_option.mpr (.inl hnone))
      · exact OkOrRefused.bind (.inl hflag) (ih (all_option hs') hinner hread)
  | vec inner ih =>
    cases hext with
    | @vec _ inner' hinner =>
      obtain ⟨count, c₁, items, hcount, -, hread, rfl⟩ := read_vec.mp h
      obtain ⟨hfits, -⟩ := Cursor.Passes.of_length hcount
      obtain ⟨size, hsize, -⟩ := minSize_of_sized (all_self (p := isSound) hs')
      obtain ⟨least, hmul⟩ := Quantity.count_mul (Nat.lt_of_le_of_lt hfits (by decide)) size
      have hleast : inner'.minSize.bind (Quantity.int count).mul = .ok least := by
        rw [hsize]
        exact hmul
      have hitems := items_of_extends (fun h => ih (all_vec hs') hinner h) hread
      -- The check before the items may ask for more than it did, and that is all that can go wrong.
      refine OkOrRefused.bind (.inl hcount) ?_
      refine OkOrRefused.bind (.inl (mapError_eq_ok.mpr hleast)) ?_
      by_cases hless : (Quantity.int c₁.rest.length).less least = true
      · rw [if_pos hless]
        exact .inr ⟨_, count, rfl⟩
      · rw [if_neg hless]
        exact hitems.bind (.inl rfl)
  | array inner length ih =>
    cases hext with
    | array hinner =>
      obtain ⟨items, hread, rfl⟩ := read_array.mp h
      exact (items_of_extends (fun h => ih (all_array hs') hinner h) hread).bind (.inl rfl)
  | record fields ih =>
    cases hext with
    | record hfields =>
      obtain ⟨entries, hread, rfl⟩ := read_record.mp h
      refine OkOrRefused.bind (fields_of_extends hfields ?_ hread) (.inl rfl)
      exact fun f hf _ _ _ _ hext hmem => ih f hf (all_record hs' _ hmem) hext
  | union variants ih =>
    cases hext with
    | union hvariants new =>
      obtain ⟨tag, c₁, name, t, payload, htag, hv, hread, rfl⟩ := read_union.mp h
      obtain ⟨t', hv', hext'⟩ := hvariants.getElem?_append new hv
      have hpart := ih _ (List.mem_of_getElem? hv) (all_union hs' _ (List.mem_of_getElem? hv')) hext'
        hread
      refine OkOrRefused.bind (.inl htag) ?_
      show OkOrRefused ((readVariant _ _ _).getD _) _
      rw [readVariant_eq, hv']
      exact hpart.map _
  | _ =>
    cases hext
    exact .inl h

theorem decode_of_extends (hs' : s'.all isSound) (hext : Extends s s')
    (h : s.decode data = .ok (v, n)) : OkOrRefused (s'.decode data) (v, n) := by
  obtain ⟨rest, hread⟩ := decode_eq_ok.mp h
  have hread' := (read_of_extends hs' hext hread).map fun x => (x.1, x.2.offset)
  rwa [← List.drop_zero (l := data)] at hread'

/-! ### Where every list is let through -/

theorem layoutFields_of_extends {entries : Entries} (hext : ExtendsFields fields fields')
    (ih : ∀ f ∈ fields, ∀ {s' v bs}, Extends f.2 s' → Layout r f.2 v bs →
      Layout ⟨AnyCount, r.loose⟩ s' v bs)
    (h : LayoutFields r fields entries bs) :
    LayoutFields ⟨AnyCount, r.loose⟩ fields' entries bs := by
  induction fields generalizing fields' entries bs with
  | nil =>
    cases hext
    cases h
    exact .nil
  | cons f fields ihf =>
    cases hext with
    | cons head tail =>
      cases h with
      | cons front back =>
        have hback := ihf tail (fun g hg => ih g (List.mem_cons_of_mem _ hg)) back
        exact .cons (ih _ List.mem_cons_self head front) hback

theorem layout_of_extends (hext : Extends s s') (h : Layout r s v bs) :
    Layout ⟨AnyCount, r.loose⟩ s' v bs := by
  induction s generalizing s' v bs with
  | integer w signed =>
    cases hext
    cases h with
    | integer range => exact .integer range
  | floatInteger w signed => cases h
  | bool =>
    cases hext
    cases h with
    | bool b => exact .bool b
  | text =>
    cases hext
    cases h with
    | text utf8 fits => exact .text utf8 fits
  | bytes =>
    cases hext
    cases h with
    | bytes fits => exact .bytes fits
  | fixedBytes length =>
    cases hext
    cases h with
    | fixedBytes => exact .fixedBytes _
  | option inner ih =>
    cases hext with
    | option hinner =>
      cases h with
      | none => exact .none _
      | some tight payload => exact .some tight (ih hinner payload)
  | vec inner ih =>
    cases hext with
    | vec hinner =>
      cases h with
      | vec fits count parts =>
        obtain ⟨bodies, hp, rfl⟩ := layoutItems_iff.mp parts
        exact .vec fits trivial (layoutItems_iff.mpr ⟨bodies, hp.imp fun _ _ => ih hinner, rfl⟩)
  | array inner length ih =>
    cases hext with
    | array hinner =>
      cases h with
      | array parts =>
        obtain ⟨bodies, hp, rfl⟩ := layoutItems_iff.mp parts
        exact .array (layoutItems_iff.mpr ⟨bodies, hp.imp fun _ _ => ih hinner, rfl⟩)
  | record fields ih =>
    cases hext with
    | record hfields =>
      cases h with
      | record parts => exact .record (layoutFields_of_extends hfields ih parts)
  | union variants ih =>
    cases hext with
    | union hvariants new =>
      cases h with
      | union variant part =>
        obtain ⟨t', hv', hext'⟩ := hvariants.getElem?_append new variant
        exact .union hv' (ih _ (List.mem_of_getElem? variant) hext' part)

theorem decode_of_extends_of_fits (hs' : s'.all isSound) (hf : Fits AnyCount s' 0)
    (hext : Extends s s') (h : s.decode data = .ok (v, n)) : s'.decode data = .ok (v, n) := by
  obtain ⟨window, rest, rfl, rfl, hlayout⟩ := layout_of_decode h
  exact decode_of_takes (takes_of_layout hs' (layout_of_extends hext hlayout) hf (Nat.zero_le _))

/-- A schema that was built and has grown writes every value in the same bytes. What the old schema
reads is read as the same value, or a list is refused for the number of its items; and nothing is
refused where every list of the new schema is let through, as where its widths were integers. -/
theorem compatible_of_extends (b b' : Blueprint) (s s' : Schema) (hb : b.build = .ok s)
    (hb' : b'.build = .ok s') (hext : Extends s s') :
    (∀ v bs, s.encode v = .ok bs → s'.encode v = .ok bs) ∧
      (∀ data v n, s.decode data = .ok (v, n) → s'.decode data = .ok (v, n) ∨
        ∃ schema count, s'.decode data = .error (.truncatedItems schema count)) ∧
      (Fits AnyCount s' 0 ∨ b'.wholeWidths →
        ∀ data v n, s.decode data = .ok (v, n) → s'.decode data = .ok (v, n)) := by
  have hs := Blueprint.sound_of_build hb
  have hs' := Blueprint.sound_of_build hb'
  refine ⟨fun v bs => encode_of_extends hs hs' hext, fun data v n => decode_of_extends hs' hext,
    fun h data v n => decode_of_extends_of_fits hs' ?_ hext⟩
  rcases h with hf | hw
  · exact hf
  · exact fits_of_exact hs' (Blueprint.exact_of_build hw hb') _ _

/-- A list of sides is written and read with a third kind of side as it was without. -/
theorem compatible_of_extends_sides :
    (vec (.union [("ask", unit), ("bid", unit), ("lot", u64)])).encode
        (.list [.map [(.text "bid", .map [])]]) = .ok [1, 0, 0, 0, 1] ∧
      (vec (.union [("ask", unit), ("bid", unit), ("lot", u64)])).decode [1, 0, 0, 0, 1] =
        .ok (.list [.map [(.text "bid", .map [])]], 5) := by
  have hsides : ExtendsFields [("ask", unit), ("bid", unit)] [("ask", unit), ("bid", unit)] :=
    .cons (.refl unit) (.cons (.refl unit) .nil)
  obtain ⟨hwritten, -, hread⟩ := compatible_of_extends
    (.vec (.union [(.text "ask", .record []), (.text "bid", .record [])]))
    (.vec (.union [(.text "ask", .record []), (.text "bid", .record []),
      (.text "lot", .integer (.int 64) (.bool false))])) _ _ rfl rfl
    (.vec (.union hsides [("lot", u64)]))
  exact ⟨hwritten _ _ rfl, hread (.inr rfl) _ _ _ rfl⟩

/-! ### A union that needs more once it has grown -/

def narrow : Schema := orNothing (.union [("x", .fixedBytes 32)])

/-- So many of the new variant take more bytes than any floating-point number tells, and none of such
lists take a number of bytes that is no number. -/
def wide : Schema := orNothing (.union [("x", .fixedBytes 32), ("y", .floatInteger .w128 false)])

theorem extends_orNothing {item item' : Schema} (h : Extends item item') :
    Extends (orNothing item) (orNothing item') := by
  have hvariants : ExtendsFields [("a", u8), ("b", .array (.array item (10 ^ 308)) 0)]
      [("a", u8), ("b", .array (.array item' (10 ^ 308)) 0)] :=
    .cons (.refl u8) (.cons (.array (.array h _) 0) .nil)
  exact .union hvariants []

theorem extends_wide : Extends (.vec narrow) (.vec wide) := by
  have hitem : ExtendsFields [("x", .fixedBytes 32)] [("x", .fixedBytes 32)] :=
    .cons (.fixedBytes 32) .nil
  exact .vec (extends_orNothing (.union hitem [("y", .floatInteger .w128 false)]))

theorem minSize_narrow : narrow.minSize = .ok (.int 1) := by
  decide +kernel

theorem minSize_wide : wide.minSize = .ok (.int 2) := by
  decide +kernel

theorem decode_narrow : decode (.vec narrow) [1, 0, 0, 0, 1] =
    .ok (.list [.map [(.text "b", .list [])]], 5) := by
  have hmul : narrow.minSize.bind (Quantity.int (1 : Nat)).mul = .ok (.int (1 * 1)) := by
    rw [minSize_narrow]
    rfl
  exact decode_eq_ok.mpr ⟨[], read_vec.mpr ⟨1, ⟨4, [1]⟩, _, rfl, ⟨_, hmul, rfl⟩, rfl, rfl⟩⟩

end Schema

namespace Blueprint

open Schema (Extends)

def narrow : Blueprint := orNothing (.union [(.text "x", .fixedBytes (.int 32))])

def wide : Blueprint :=
  orNothing (.union [(.text "x", .fixedBytes (.int 32)),
    (.text "y", .integer (.float (.ofNat 128)) (.bool false))])

theorem offer_narrow : narrow.offer = .ok (.schema Schema.narrow) :=
  offer_orNothing rfl (by decide +kernel) (by decide +kernel)

theorem offer_wide : wide.offer = .ok (.schema Schema.wide) := by
  refine offer_orNothing (offer_union.mpr ⟨_, rfl, by decide +kernel, ?_⟩) (by decide +kernel)
    (by decide +kernel)
  exact .cons ⟨rfl, rfl⟩ (.cons ⟨rfl, offer_floatInteger⟩ .nil)

theorem build_narrow : (vec narrow).build = .ok (.vec Schema.narrow) :=
  build_eq_ok.mpr (offer_vec.mpr ⟨_, rfl, by decide +kernel, offer_narrow⟩)

theorem build_wide : (vec wide).build = .ok (.vec Schema.wide) :=
  build_eq_ok.mpr (offer_vec.mpr ⟨_, rfl, by decide +kernel, offer_wide⟩)

/-- A list of one item that takes one byte is read, until the schema of the items grows. -/
theorem wide_not_compatible :
    (vec narrow).build = .ok (.vec Schema.narrow) ∧ (vec narrow).wholeWidths ∧
      (vec wide).build = .ok (.vec Schema.wide) ∧ Extends (.vec Schema.narrow) (.vec Schema.wide) ∧
      (Schema.vec Schema.narrow).decode [1, 0, 0, 0, 1] =
        .ok (.list [.map [(.text "b", .list [])]], 5) ∧
      (Schema.vec Schema.wide).decode [1, 0, 0, 0, 1] =
        .error (.truncatedItems (Schema.vec Schema.wide).describe 1) :=
  ⟨build_narrow, rfl, build_wide, Schema.extends_wide, Schema.decode_narrow,
    Schema.decode_vec_short Schema.minSize_wide⟩

end Blueprint

end LedgerWire
