import LedgerWire.Proofs.Schema.Plain
import LedgerWire.Proofs.Schema.Size

/-!
# Counts of items

A reader refuses a list whose number of items seems too large for what is left. `Schema.Fits` says that
this never happens to a layout, for any list inside a schema: the number is let through even if all of
the items are the shortest there are and as little as can be comes after them. It holds where every
width was given as an integer, and where it fails there is a value that is written and then refused.
-/

namespace LedgerWire

namespace Schema

open Reader

/-- A value of the first schema, with the first number of bytes after it, may hold a list of the second
schema, with as few as the second number of bytes after it. Lists around it have as many items as
`counts` tells. -/
inductive HasList (counts : Schema → Nat → Prop) : Schema → Nat → Schema → Nat → Prop
  | here (inner : Schema) (after : Nat) : HasList counts (.vec inner) after inner after
  | option {s inner : Schema} {after left : Nat} (h : HasList counts s after inner left) :
    HasList counts (.option s) after inner left
  | vec {s inner : Schema} {after left : Nat} (count : Nat) (fits : count + 1 ≤ maxLength)
    (passes : counts s (count + 1)) (h : HasList counts s after inner left) :
    HasList counts (.vec s) after inner left
  | array {s inner : Schema} {after left : Nat} (count : Nat) (h : HasList counts s after inner left) :
    HasList counts (.array s (count + 1)) after inner left
  | record {f : Text × Schema} {inner : Schema} {after left m n : Nat}
    {before later : List (Text × Schema)} (front : shortestOf before = some m)
    (back : shortestOf later = some n) (h : HasList counts f.2 (n + after) inner left) :
    HasList counts (.record (before ++ f :: later)) after inner left
  | union {f : Text × Schema} {inner : Schema} {after left : Nat} {variants : List (Text × Schema)}
    (variant : f ∈ variants) (h : HasList counts f.2 after inner left) :
    HasList counts (.union variants) after inner left

/-- Every list in a value with `after` bytes after it is let through. -/
def Fits (counts : Schema → Nat → Prop) (s : Schema) (after : Nat) : Prop :=
  ∀ inner left, HasList counts s after inner left → ∀ m, shortest? inner = some m →
    ∀ count, count ≤ maxLength → counts inner count → Admits inner count (count * m + left)

variable {counts : Schema → Nat → Prop} {r : Rules} {s inner : Schema}
  {fields variants : List (Text × Schema)} {v : Value} {bs : Bytes} {m after left : Nat}

theorem HasList.mono {counts' : Schema → Nat → Prop} (hc : ∀ s n, counts s n → counts' s n)
    (h : HasList counts s after inner left) : HasList counts' s after inner left := by
  induction h with
  | here inner after => exact .here inner after
  | option _ ih => exact .option ih
  | vec count fits passes _ ih => exact .vec count fits (hc _ _ passes) ih
  | array count _ ih => exact .array count ih
  | record front back _ ih => exact .record front back ih
  | union variant _ ih => exact .union variant ih

theorem Fits.mono {counts' : Schema → Nat → Prop} (hc : ∀ s n, counts s n → counts' s n)
    (h : Fits counts' s after) : Fits counts s after :=
  fun inner left hl m hm count hn hp => h inner left (hl.mono hc) m hm count hn (hc _ _ hp)

/-- A test that every node passes is passed by every node of the items of a list inside. -/
theorem HasList.all {p : Schema → Bool} (h : HasList counts s after inner left) (hs : s.all p) :
    inner.all p := by
  induction h with
  | here inner after => exact all_vec hs
  | option _ ih => exact ih (all_option hs)
  | vec _ _ _ _ ih => exact ih (all_vec hs)
  | array _ _ ih => exact ih (all_array hs)
  | record _ _ _ ih => exact ih (all_record hs _ (by simp))
  | union variant _ ih => exact ih (all_union hs _ variant)

/-- Where every width was given as an integer, every list is let through. -/
theorem fits_of_exact (hs : s.all isSound) (he : s.all isExact) (counts : Schema → Nat → Prop)
    (after : Nat) : Fits counts s after :=
  fun _ _ h _ hm _ _ _ =>
    (admits_iff_of_exact (h.all hs) (h.all he) hm).mpr (Nat.le_add_right _ _)

/-! ### Where every list is let through -/

theorem Admits.mono {count left' : Nat} (h : Admits inner count left) (hle : left ≤ left') :
    Admits inner count left' := by
  obtain ⟨least, hmul, hless⟩ := h
  exact ⟨least, hmul, Quantity.not_less_mono (by exact_mod_cast hle) hless⟩

theorem takes_of_layoutItems {items : List Value} {parts : List Bytes} {rest : Bytes}
    (ih : ∀ {v bs rest}, Layout r inner v bs → after ≤ rest.length → Takes (read inner) bs v rest)
    (h : List.Forall₂ (Layout r inner) items parts) (hle : after ≤ rest.length) :
    Takes (readItems (read inner) items.length) parts.flatten items rest :=
  takes_items (h.imp fun _ _ hl _ hle' => ih hl (Nat.le_trans hle hle'))

theorem takes_of_rows {rows : List Row} {rest : Bytes}
    (ih : ∀ row ∈ rows, ∀ after v bs rest, Layout r row.schema v bs →
      Fits r.counts row.schema after → after ≤ rest.length → Takes (read row.schema) bs v rest)
    (hl : ∀ row ∈ rows, Layout r row.schema row.value row.bytes)
    (before : List (Text × Schema)) (hb : shortestOf before = some m)
    (hf : Fits r.counts (.record (before ++ rows.map Row.field)) after) (hle : after ≤ rest.length) :
    Takes (readFields (rows.map Row.field)) (rows.map (·.bytes)).flatten (rows.map Row.entry) rest := by
  induction rows generalizing before m with
  | nil => exact fun offset => readFields_nil.mpr ⟨rfl, rfl⟩
  | cons row rows ihr =>
    obtain ⟨head, tail⟩ := List.forall_mem_cons.mp hl
    obtain ⟨n, hn, hrows⟩ := le_of_layout (.record (layoutFields_iff.mpr ⟨rows, rfl, rfl, tail, rfl⟩))
    obtain ⟨k, hk, -⟩ := le_of_layout head
    refine takes_fields_cons ?_ ?_
    · refine ih row List.mem_cons_self (n + after) _ _ _ head (fun inner left h => ?_) ?_
      · exact hf inner left (.record (f := row.field) hb hn h)
      · rw [List.length_append]
        exact Nat.add_le_add hrows hle
    · refine ihr (fun row' h => ih row' (List.mem_cons_of_mem row h)) tail
        (before ++ [row.field]) (m := m + k)
        (shortestOf_append.mpr ⟨m, k, hb, by simp [shortestOf, Row.field, hk], rfl⟩) ?_
      rwa [List.append_assoc]

/-- A layout is taken off, where as many bytes come after it as the lists inside need. -/
theorem takes_of_layout (hs : s.all isSound) (h : Layout r s v bs) (hf : Fits r.counts s after)
    {rest : Bytes} (hle : after ≤ rest.length) : Takes (read s) bs v rest := by
  induction s generalizing v bs after rest with
  | integer w signed =>
    cases h with
    | integer range => exact takes_integer range rest
  | floatInteger w signed => cases h
  | bool =>
    cases h with
    | bool b => exact takes_bool b rest
  | text =>
    cases h with
    | text utf8 fits => exact takes_text utf8 fits rest
  | bytes =>
    cases h with
    | bytes fits => exact takes_bytes fits rest
  | fixedBytes length =>
    cases h with
    | fixedBytes => exact takes_fixedBytes rfl rest
  | option inner ih =>
    cases h with
    | none => exact takes_none inner rest
    | some _ payload =>
      exact takes_some (ih (all_option hs) payload (fun _ _ h => hf _ _ (.option h)) hle)
  | vec inner ih =>
    cases h with
    | @vec _ items _ fits count parts =>
      obtain ⟨bodies, hp, rfl⟩ := layoutItems_iff.mp parts
      cases hp with
      | nil =>
        exact takes_vec [] fits (admits_zero (all_self (p := isSound) hs) _)
          (fun offset => readItems_zero.mpr ⟨rfl, rfl⟩)
      | @cons _ _ items _ head tail =>
        have hp := List.Forall₂.cons head tail
        obtain ⟨m, hm, -⟩ := le_of_layout head
        have hsum := le_of_layoutItems le_of_layout hp hm
        refine takes_vec _ fits ?_ ?_
        · exact (hf inner after (.here inner after) m hm _ fits count).mono (Nat.add_le_add hsum hle)
        · refine takes_of_layoutItems (fun hl hle => ih (all_vec hs) hl ?_ hle) hp hle
          exact fun _ _ h => hf _ _ (.vec items.length fits count h)
  | array inner length ih =>
    cases h with
    | array parts =>
      obtain ⟨bodies, hp, rfl⟩ := layoutItems_iff.mp parts
      cases hp with
      | nil => exact takes_array [] fun offset => readItems_zero.mpr ⟨rfl, rfl⟩
      | @cons _ _ items _ head tail =>
        refine takes_array _ (takes_of_layoutItems (fun hl hle => ih (all_array hs) hl ?_ hle)
          (.cons head tail) hle)
        exact fun _ _ h => hf _ _ (.array items.length h)
  | record fields ih =>
    cases h with
    | record parts =>
      obtain ⟨rows, rfl, rfl, hrows, rfl⟩ := layoutFields_iff.mp parts
      refine takes_record (takes_of_rows (fun row hrow => ?_) hrows [] rfl hf hle)
      have hmem := List.mem_map_of_mem (f := Row.field) hrow
      exact fun _ _ _ _ hl hf hle => ih _ hmem (all_record hs _ hmem) hl hf hle
  | union variants ih =>
    cases h with
    | union variant part =>
      have hmem := List.mem_of_getElem? variant
      exact takes_union (length_of_union hs) variant
        (ih _ hmem (all_union hs _ hmem) part (fun _ _ h => hf _ _ (.union hmem h)) hle)

/-! ### Where a list is refused -/

/-- The encoding of `v` is refused where just `after` bytes come after it. If all counts are passable,
more bytes let it through. -/
structure Refused (counts : Schema → Nat → Prop) (s : Schema) (after : Nat) (v : Value)
    (bs : Bytes) : Prop where
  written : encode s v = .ok bs
  refused : ∀ rest : Bytes, rest.length = after → ∀ offset x, read s ⟨offset, bs ++ rest⟩ ≠ .ok x
  taken : (∀ inner count, counts inner count → Passable inner count) →
    ∃ need, ∀ rest : Bytes, need ≤ rest.length → Takes (read s) bs v rest

theorem Refused.ne_none (h : Refused counts s after v bs) : v ≠ .none := by
  rintro rfl
  obtain ⟨inner, rfl⟩ := option_of_encode_none h.written
  cases encode_option_none.symm.trans h.written
  exact h.refused (List.replicate after 0) List.length_replicate 0 _ (takes_none inner _ 0)

theorem refused_vec (hs : (vec s).all isSound) (hm : shortest? s = some m) {count : Nat}
    (hn : count ≤ maxLength) (hc : counts s count) (ha : ¬ Admits s count (count * m + after)) :
    ∃ v bs, Refused counts (.vec s) after v bs := by
  obtain ⟨item, light, hlight⟩ := exists_lightest (all_vec hs) hm
  have hbody : (List.replicate count light).flatten.length = count * m := by
    simp [hlight.length]
  have hl : (List.replicate count item).length = count := List.length_replicate
  refine ⟨.list (.replicate count item),
    Bytes.ofNatLE lengthSize count ++ (List.replicate count light).flatten, ?_, ?_, ?_⟩
  · exact encode_vec.mpr ⟨_, _, rfl, by rwa [hl], hlight.encode_items count, by rw [hl]⟩
  · rintro rest hrest offset ⟨v, c⟩ hread
    obtain ⟨count', c₁, items, h₁, hadmits, -⟩ := read_vec.mp hread
    rw [List.append_assoc, Cursor.length_ofNatLE hn] at h₁
    cases h₁
    rw [List.length_append, hbody, hrest] at hadmits
    exact ha hadmits
  · intro hp
    obtain ⟨left, hleft⟩ := hp s count hc
    refine ⟨left, fun rest hle => ?_⟩
    have := takes_vec (.replicate count item) (by rwa [hl])
      (by rw [hl]; exact hleft.mono (Nat.le_add_left_of_le hle))
      (by rw [hl]; exact hlight.takes_items count rest)
    rwa [hl] at this

theorem readItems_refused {f : Reader Value} {item : Value} {light : Bytes}
    (hl : ∀ rest, Takes f light item rest) {rest : Bytes}
    (hr : ∀ offset x, f ⟨offset, bs ++ rest⟩ ≠ .ok x) (count offset : Nat)
    (x : List Value × Cursor) :
    readItems f (count + 1) ⟨offset, (List.replicate count light).flatten ++ bs ++ rest⟩ ≠
      .ok x := by
  intro h
  induction count generalizing offset x with
  | zero =>
    obtain ⟨item', c, items, hread, -⟩ := readItems_succ.mp h
    exact hr _ _ hread
  | succ count ih =>
    obtain ⟨item', c, items, hread, hrest, -⟩ := readItems_succ.mp h
    rw [List.replicate_succ, List.flatten_cons, List.append_assoc, List.append_assoc, hl _ offset]
      at hread
    cases hread
    rw [← List.append_assoc] at hrest
    exact ih _ _ hrest

theorem shortest_of_encode (hs : s.all isSound) (h : encode s v = .ok bs) :
    ∃ m, shortest? s = some m := by
  obtain ⟨n, -, hn⟩ := layout_of_encode hs h
  obtain ⟨m, hm, -⟩ := le_of_layout hn
  exact ⟨m, hm⟩

/-- Shortest items and then one that is refused. -/
theorem Refused.items (hs : s.all isSound) (h : Refused counts s after v bs) (count : Nat) :
    ∃ items parts, items.length = count + 1 ∧
      List.Forall₂ (fun item part => encode s item = .ok part) items parts ∧
      (∀ rest : Bytes, rest.length = after → ∀ offset x,
        readItems (read s) (count + 1) ⟨offset, parts.flatten ++ rest⟩ ≠ .ok x) ∧
      ((∀ inner count, counts inner count → Passable inner count) →
        ∃ need, ∀ rest : Bytes, need ≤ rest.length →
          Takes (readItems (read s) (count + 1)) parts.flatten items rest) := by
  obtain ⟨m, hm⟩ := shortest_of_encode hs h.written
  obtain ⟨item, light, hlight⟩ := exists_lightest hs hm
  refine ⟨.replicate count item ++ [v], .replicate count light ++ [bs], by simp, ?_, ?_, ?_⟩
  · exact List.rel_append (hlight.encode_items count) (.cons h.written .nil)
  · intro rest hrest offset x
    have := readItems_refused hlight.taken (h.refused rest hrest) count offset x
    simpa using this
  · intro hp
    obtain ⟨need, htaken⟩ := h.taken hp
    refine ⟨need, fun rest hle => ?_⟩
    have hitems : List.Forall₂ (fun item part => ∀ rest', rest.length ≤ rest'.length →
        Takes (read s) part item rest') (.replicate count item ++ [v])
        (.replicate count light ++ [bs]) :=
      List.rel_append (forall₂_replicate (fun rest' _ => hlight.taken rest') count)
        (.cons (fun rest' hle' => htaken rest' (Nat.le_trans hle hle')) .nil)
    have := takes_items hitems
    simpa using this

theorem Refused.option (h : Refused counts s after v bs) :
    Refused counts (.option s) after v (1 :: bs) where
  written := encode_option.mpr (.inr ⟨h.ne_none, bs, h.written, rfl⟩)
  refused := by
    rintro rest hrest offset ⟨v', c⟩ hread
    rcases read_option.mp hread with ⟨hn, -⟩ | ⟨c₁, hn, hread⟩
    · cases hn
    · cases hn
      exact h.refused rest hrest _ _ hread
  taken hp := by
    obtain ⟨need, htaken⟩ := h.taken hp
    exact ⟨need, fun rest hle => takes_some (htaken rest hle)⟩

theorem Refused.vec (hs : (Schema.vec s).all isSound) (h : Refused counts s after v bs) {count : Nat}
    (hn : count + 1 ≤ maxLength) (hc : counts s (count + 1)) :
    ∃ v bs, Refused counts (.vec s) after v bs := by
  obtain ⟨items, parts, hl, hp, hrefused, htaken⟩ := h.items (all_vec hs) count
  refine ⟨.list items, Bytes.ofNatLE lengthSize (count + 1) ++ parts.flatten, ?_, ?_, ?_⟩
  · exact encode_vec.mpr ⟨items, parts, rfl, by rwa [hl], hp, by rw [hl]⟩
  · rintro rest hrest offset ⟨v', c⟩ hread
    obtain ⟨count', c₁, items', h₁, -, hitems, -⟩ := read_vec.mp hread
    rw [List.append_assoc, Cursor.length_ofNatLE hn] at h₁
    cases h₁
    exact hrefused rest hrest _ _ hitems
  · intro hpass
    obtain ⟨need, hneed⟩ := htaken hpass
    obtain ⟨left, hleft⟩ := hpass s (count + 1) hc
    refine ⟨max need left, fun rest hle => ?_⟩
    have := takes_vec items (by rwa [hl])
      (by rw [hl]; exact hleft.mono (Nat.le_add_left_of_le (Nat.le_trans (Nat.le_max_right _ _) hle)))
      (by rw [hl]; exact hneed rest (Nat.le_trans (Nat.le_max_left _ _) hle))
    rwa [hl] at this

theorem Refused.array (hs : (Schema.array s (count + 1)).all isSound)
    (h : Refused counts s after v bs) :
    ∃ v bs, Refused counts (.array s (count + 1)) after v bs := by
  obtain ⟨items, parts, hl, hp, hrefused, htaken⟩ := h.items (all_array hs) count
  refine ⟨.list items, parts.flatten, encode_array.mpr ⟨items, parts, rfl, hl, hp, rfl⟩, ?_, ?_⟩
  · rintro rest hrest offset ⟨v', c⟩ hread
    obtain ⟨items', hitems, -⟩ := read_array.mp hread
    exact hrefused rest hrest _ _ hitems
  · intro hpass
    obtain ⟨need, hneed⟩ := htaken hpass
    refine ⟨need, fun rest hle => ?_⟩
    have := takes_array items (by rw [hl]; exact hneed rest hle)
    rwa [hl] at this

/-- Shortest fields on both sides of one that is refused. -/
theorem Refused.record {f : Text × Schema} {before later : List (Text × Schema)} {m n : Nat}
    (hs : (Schema.record (before ++ f :: later)).all isSound) (hb : shortestOf before = some m)
    (hl : shortestOf later = some n) (h : Refused counts f.2 (n + after) v bs) :
    ∃ v bs, Refused counts (.record (before ++ f :: later)) after v bs := by
  have hall := all_record hs
  obtain ⟨front, rfl, hfe, -, hft⟩ := exists_lightest_rows
    (fun g hg _ => exists_lightest (hall g (by simp [hg]))) hb
  obtain ⟨back, rfl, hbe, hbl, hbt⟩ := exists_lightest_rows
    (fun g hg _ => exists_lightest (hall g (by simp [hg]))) hl
  let row : Row := ⟨f.1, f.2, v, bs⟩
  have hfields : (front ++ row :: back).map Row.field =
      front.map Row.field ++ f :: back.map Row.field := by simp [row, Row.field]
  refine ⟨.map ((front ++ row :: back).map Row.entry),
    ((front ++ row :: back).map (·.bytes)).flatten, ?_, ?_, ?_⟩
  · refine (encode_record (nodup_of_record hs)).mpr ⟨_, _, rfl, hfields, fun r hr => ?_, .refl _, rfl⟩
    rcases List.mem_append.mp hr with hr | hr
    · exact hfe r hr
    · exact (List.forall_mem_cons (p := Row.Encodes) (a := row)).mpr ⟨h.written, hbe⟩ r hr
  · rintro rest hrest offset ⟨v', c⟩ hread
    obtain ⟨entries, hread, -⟩ := read_record.mp hread
    obtain ⟨entries', c₁, entries'', h₁, h₂, -⟩ := readFields_append.mp hread
    rw [List.map_append, List.flatten_append, List.append_assoc, hft _ offset] at h₁
    cases h₁
    obtain ⟨v'', c₂, rest', h₃, -⟩ := readFields_cons.mp h₂
    rw [List.map_cons, List.flatten_cons, List.append_assoc] at h₃
    exact h.refused _ (by rw [List.length_append, hbl, hrest]) _ _ h₃
  · intro hpass
    obtain ⟨need, hneed⟩ := h.taken hpass
    refine ⟨need, fun rest hle => ?_⟩
    rw [← hfields]
    refine takes_record ?_
    rw [List.map_append, List.map_append, List.map_append, List.flatten_append]
    refine takes_fields_append (hft _) (takes_fields_cons (hneed _ ?_) (hbt rest))
    rw [List.length_append]
    exact Nat.le_add_left_of_le hle

theorem Refused.union {f : Text × Schema} (hs : (Schema.union variants).all isSound)
    (hf : f ∈ variants) (h : Refused counts f.2 after v bs) :
    ∃ v bs, Refused counts (.union variants) after v bs := by
  obtain ⟨index, hi⟩ := List.getElem?_of_mem hf
  have hlt : index < variants.length := (List.getElem?_eq_some_iff.mp hi).1
  have hle := length_of_union hs
  refine ⟨.map [(.text f.1, v)], UInt8.ofNat index :: bs, ?_, ?_, ?_⟩
  · exact (encode_union (nodup_of_union hs)).mpr ⟨index, f.1, f.2, v, bs, hi, rfl, h.written, rfl⟩
  · rintro rest hrest offset ⟨v', c⟩ hread
    obtain ⟨tag, c₁, name, t, payload, h₁, hv, h₂, -⟩ := read_union.mp hread
    cases h₁
    rw [Utf8.toNat_ofNat (by omega), hi] at hv
    cases hv
    exact h.refused rest hrest _ _ h₂
  · intro hpass
    obtain ⟨need, hneed⟩ := h.taken hpass
    exact ⟨need, fun rest hle' => takes_union hle hi (hneed rest hle')⟩

/-- A list inside that is not let through makes a value that is refused. -/
theorem HasList.refused (hs : s.all isSound) (h : HasList counts s after inner left)
    (hm : shortest? inner = some m) {count : Nat} (hn : count ≤ maxLength) (hc : counts inner count)
    (ha : ¬ Admits inner count (count * m + left)) : ∃ v bs, Refused counts s after v bs := by
  induction h with
  | here inner after => exact refused_vec hs hm hn hc ha
  | option _ ih =>
    obtain ⟨v, bs, h⟩ := ih (all_option hs) hm hc ha
    exact ⟨v, _, h.option⟩
  | vec _ fits passes _ ih =>
    obtain ⟨v, bs, h⟩ := ih (all_vec hs) hm hc ha
    exact h.vec hs fits passes
  | array _ _ ih =>
    obtain ⟨v, bs, h⟩ := ih (all_array hs) hm hc ha
    exact h.array hs
  | record front back _ ih =>
    obtain ⟨v, bs, h⟩ := ih (all_record hs _ (by simp)) hm hc ha
    exact h.record hs front back
  | union variant _ ih =>
    obtain ⟨v, bs, h⟩ := ih (all_union hs _ variant) hm hc ha
    exact h.union hs variant

theorem exists_refused (hs : s.all isSound) (h : ¬ Fits counts s after) :
    ∃ v bs, Refused counts s after v bs := by
  simp only [Fits, not_forall] at h
  obtain ⟨inner, left, hl, m, hm, count, hn, hc, ha⟩ := h
  exact hl.refused hs hm hn hc ha

end Schema

end LedgerWire
