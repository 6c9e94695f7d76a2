import LedgerWire.Proofs.Schema.Layout

/-!
# Values as they come back

A value may be written with a list where a byte string is asked for, and with the entries of a mapping
in any order. `Schema.plain` puts byte strings in the places of such lists, and `Value.Reordered` says
that two values are the same but for the order of entries. What is written for a value is a layout of
the plain value with its entries in the order of the schema.
-/

namespace LedgerWire

/-! ### The order of entries -/

namespace Value

mutual

/-- The same value, up to the order of the entries of mappings in it. -/
inductive Reordered : Value → Value → Prop
  | refl (v : Value) : Reordered v v
  | list {items items' : List Value} (each : ReorderedItems items items') :
    Reordered (.list items) (.list items')
  | map {entries mid entries' : List (Value × Value)} (perm : entries.Perm mid)
    (each : ReorderedEntries mid entries') : Reordered (.map entries) (.map entries')

inductive ReorderedItems : List Value → List Value → Prop
  | nil : ReorderedItems [] []
  | cons {item item' : Value} {items items' : List Value} (head : Reordered item item')
    (tail : ReorderedItems items items') : ReorderedItems (item :: items) (item' :: items')

inductive ReorderedEntries : List (Value × Value) → List (Value × Value) → Prop
  | nil : ReorderedEntries [] []
  | cons {key v v' : Value} {entries entries' : List (Value × Value)} (head : Reordered v v')
    (tail : ReorderedEntries entries entries') :
    ReorderedEntries ((key, v) :: entries) ((key, v') :: entries')

end

theorem eq_none_of_reordered {v : Value} (h : Reordered v .none) : v = .none := by
  cases h
  rfl

/-- A list that stands for a byte string, as that byte string. -/
def plainBytes : Value → Value
  | .list items =>
    match toByteItems items with
    | .ok bs => .bytes bs
    | .error _ => .list items
  | v => v

end Value

namespace Schema

open Value

mutual

/-- The value with a byte string in the place of each list that stands for one. -/
def plain : Schema → Value → Value
  | .bytes, v => v.plainBytes
  | .fixedBytes _, v => v.plainBytes
  | .option inner, v => plain inner v
  | .vec inner, .list items => .list (items.map (plain inner))
  | .array inner _, .list items => .list (items.map (plain inner))
  | .record fields, .map entries => .map (entries.map fun e => (e.1, plainAt fields e.1 e.2))
  | .union variants, .map entries => .map (entries.map fun e => (e.1, plainAt variants e.1 e.2))
  | _, v => v

/-- The value of the field or variant that the key is the name of. -/
def plainAt : List (Text × Schema) → (key : Value) → Value → Value
  | [], _, v => v
  | (name, s) :: fields, .text t, v => if t = name then plain s v else plainAt fields (.text t) v
  | _ :: _, _, v => v

end

variable {s inner : Schema} {fields : List (Text × Schema)} {v : Value} {bs : Bytes}

theorem plainAt_of_mem {name : Text} (hn : (fields.map (·.1)).Nodup) (h : (name, s) ∈ fields) :
    plainAt fields (.text name) v = plain s v := by
  induction fields with
  | nil => cases h
  | cons f fields ih =>
    obtain ⟨hnot, hn⟩ := List.nodup_cons.mp hn
    rcases List.mem_cons.mp h with rfl | h
    · exact if_pos rfl
    · have hne : name ≠ f.1 := by
        rintro rfl
        exact hnot (List.mem_map_of_mem (f := (·.1)) h)
      exact (if_neg hne).trans (ih hn h)

@[simp] theorem plain_none : plain s .none = .none := by
  induction s with
  | option inner ih => exact ih
  | _ => rfl

theorem eq_none_of_plain (h : plain s v = .none) : v = .none := by
  induction s with
  | option inner ih => exact ih h
  | _ =>
    cases v with
    | none => rfl
    | list items =>
      simp only [plain, plainBytes] at h
      try split at h
      all_goals cases h
    | _ => cases h

theorem plainBytes_of_spells {body : Bytes} (h : Spells v body) : v.plainBytes = .bytes body := by
  rcases h with rfl | ⟨items, rfl, h⟩
  · rfl
  · simp only [plainBytes, h]

/-- The node is no byte string, which a list could stand for. -/
def isDirect : Schema → Bool
  | .bytes => false
  | .fixedBytes _ => false
  | _ => true

theorem plainAt_eq_self (ih : ∀ f ∈ fields, ∀ v, plain f.2 v = v) (key v : Value) :
    plainAt fields key v = v := by
  induction fields with
  | nil => rfl
  | cons f fields ihf =>
    have hlater := ihf fun g hg => ih g (List.mem_cons_of_mem f hg)
    cases key with
    | text t =>
      show (if t = f.1 then plain f.2 v else plainAt fields (.text t) v) = v
      rw [hlater, ih f List.mem_cons_self v, ite_self]
    | _ => rfl

theorem plain_eq_self (hs : s.all isDirect) (v : Value) : plain s v = v := by
  have hitems {s : Schema} {items : List Value} (ih : ∀ v, plain s v = v) :
      items.map (plain s) = items :=
    (List.map_congr_left fun item _ => ih item).trans (List.map_id items)
  have hentries {fields : List (Text × Schema)} {entries : List (Value × Value)}
      (ih : ∀ f ∈ fields, ∀ v, plain f.2 v = v) :
      entries.map (fun e => (e.1, plainAt fields e.1 e.2)) = entries :=
    (List.map_congr_left fun e _ => congrArg (e.1, ·) (plainAt_eq_self ih e.1 e.2)).trans
      (List.map_id entries)
  induction s generalizing v with
  | bytes => cases hs
  | fixedBytes length => cases hs
  | option inner ih => exact ih (all_option hs) v
  | vec inner ih =>
    cases v with
    | list items => exact congrArg Value.list (hitems (ih (all_vec hs)))
    | _ => rfl
  | array inner length ih =>
    cases v with
    | list items => exact congrArg Value.list (hitems (ih (all_array hs)))
    | _ => rfl
  | record fields ih =>
    cases v with
    | map entries => exact congrArg Value.map (hentries fun f hf => ih f hf (all_record hs f hf))
    | _ => rfl
  | union variants ih =>
    cases v with
    | map entries => exact congrArg Value.map (hentries fun f hf => ih f hf (all_union hs f hf))
    | _ => rfl
  | _ => rfl

/-! ### What is written is a layout -/

theorem layout_of_encodeItems {items : List Value} {parts : List Bytes}
    (ih : ∀ {v bs}, encode inner v = .ok bs → ∃ n, Reordered (plain inner v) n ∧
      Layout .written inner n bs)
    (h : List.Forall₂ (fun item part => encode inner item = .ok part) items parts) :
    ∃ ns, ReorderedItems (items.map (plain inner)) ns ∧ ns.length = items.length ∧
      LayoutItems .written inner ns parts.flatten := by
  induction h with
  | nil => exact ⟨[], .nil, rfl, .nil inner⟩
  | cons head tail iht =>
    obtain ⟨n, hr, hl⟩ := ih head
    obtain ⟨ns, hrs, hlen, hls⟩ := iht
    exact ⟨n :: ns, .cons hr hrs, congrArg (· + 1) hlen, .cons hl hls⟩

theorem layout_of_rows {rows : List Row}
    (ih : ∀ row ∈ rows, row.Encodes → ∃ n, Reordered (plain row.schema row.value) n ∧
      Layout .written row.schema n row.bytes)
    (h : ∀ row ∈ rows, row.Encodes) :
    ∃ entries,
      ReorderedEntries (rows.map fun row => (.text row.name, plain row.schema row.value)) entries ∧
      LayoutFields .written (rows.map Row.field) entries (rows.map (·.bytes)).flatten := by
  induction rows with
  | nil => exact ⟨[], .nil, .nil⟩
  | cons row rows ihr =>
    obtain ⟨head, tail⟩ := List.forall_mem_cons.mp h
    obtain ⟨n, hr, hl⟩ := ih row List.mem_cons_self head
    obtain ⟨entries, hrs, hls⟩ := ihr (fun r hr => ih r (List.mem_cons_of_mem row hr)) tail
    exact ⟨(.text row.name, n) :: entries, .cons hr hrs, .cons hl hls⟩

/-- What is written for a value is a layout of the plain value, in the order of the schema. -/
theorem layout_of_encode (hs : s.all isSound) (h : encode s v = .ok bs) :
    ∃ n, Reordered (plain s v) n ∧ Layout .written s n bs := by
  induction s generalizing v bs with
  | integer w signed =>
    obtain ⟨n, rfl, range, rfl⟩ := encode_integer.mp h
    exact ⟨_, .refl _, .integer range⟩
  | floatInteger w signed => exact absurd h encode_floatInteger
  | bool =>
    obtain ⟨b, rfl, rfl⟩ := encode_bool.mp h
    exact ⟨_, .refl _, .bool b⟩
  | text =>
    obtain ⟨t, body, rfl, utf8, fits, rfl⟩ := encode_text.mp h
    exact ⟨_, .refl _, .text utf8 fits⟩
  | bytes =>
    obtain ⟨body, hv, fits, rfl⟩ := encode_bytes.mp h
    refine ⟨.bytes body, ?_, .bytes fits⟩
    rw [plain, plainBytes_of_spells hv]
    exact .refl _
  | fixedBytes length =>
    obtain ⟨hv, rfl⟩ := encode_fixedBytes.mp h
    refine ⟨.bytes bs, ?_, .fixedBytes bs⟩
    rw [plain, plainBytes_of_spells hv]
    exact .refl _
  | option inner ih =>
    rcases encode_option.mp h with ⟨rfl, rfl⟩ | ⟨hv, body, hb, rfl⟩
    · refine ⟨.none, ?_, .none inner⟩
      rw [plain_none]
      exact .refl _
    · obtain ⟨n, hr, hl⟩ := ih (all_option hs) hb
      refine ⟨n, hr, .some (fun hn => hv ?_) hl⟩
      subst hn
      exact eq_none_of_plain (eq_none_of_reordered hr)
  | vec inner ih =>
    obtain ⟨items, parts, rfl, fits, hp, rfl⟩ := encode_vec.mp h
    obtain ⟨ns, hr, hlen, hl⟩ := layout_of_encodeItems (ih (all_vec hs)) hp
    have := Layout.vec (r := .written) (by rwa [hlen]) trivial hl
    rw [hlen] at this
    exact ⟨.list ns, .list hr, this⟩
  | array inner length ih =>
    obtain ⟨items, parts, rfl, rfl, hp, rfl⟩ := encode_array.mp h
    obtain ⟨ns, hr, hlen, hl⟩ := layout_of_encodeItems (ih (all_array hs)) hp
    have := Layout.array hl
    rw [hlen] at this
    exact ⟨.list ns, .list hr, this⟩
  | record fields ih =>
    have hn := nodup_of_record hs
    obtain ⟨entries, rows, rfl, rfl, hrows, hperm, rfl⟩ := (encode_record hn).mp h
    obtain ⟨ns, hr, hl⟩ := layout_of_rows (fun row hrow => by
      have hmem := List.mem_map_of_mem (f := Row.field) hrow
      exact ih _ hmem (all_record hs _ hmem)) hrows
    refine ⟨.map ns, .map (?_ : List.Perm _ _) hr, .record hl⟩
    have := hperm.map fun e => (e.1, plainAt (rows.map Row.field) e.1 e.2)
    refine this.trans (.of_eq ?_)
    rw [List.map_map]
    refine List.map_congr_left fun row hrow => ?_
    exact congrArg _ (plainAt_of_mem hn (List.mem_map_of_mem (f := Row.field) hrow))
  | union variants ih =>
    have hn := nodup_of_union hs
    obtain ⟨index, name, t, payload, body, hi, rfl, hb, rfl⟩ := (encode_union hn).mp h
    have hmem := List.mem_of_getElem? hi
    obtain ⟨n, hr, hl⟩ := ih _ hmem (all_union hs _ hmem) hb
    refine ⟨.map [(.text name, n)], .map (.refl _) (.cons ?_ .nil), .union hi hl⟩
    rwa [plainAt_of_mem hn hmem]

end Schema

end LedgerWire
