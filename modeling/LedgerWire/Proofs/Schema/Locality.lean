import LedgerWire.Proofs.Schema.Canonical

/-!
# Reading is local

What a value is read from can stand anywhere. `Follows` compares a reading with the same reading in a
longer input, some bytes further on: what is found is the same, and so are errors about a byte that may
not stand where it stands. `Reader.Windowed` looks at a window that a value was read from: nothing but
that value is read there, and a part of the window is refused as too short. Whether the window alone is
enough is a matter of the lists in it.
-/

namespace LedgerWire

/-! ### Sorts of errors -/

inductive DecodeError.Category
  | truncated | discriminant | encoding | trailing | type | overflow
  deriving DecidableEq, Repr

namespace DecodeError

def category : DecodeError → Category
  | .truncated _ _ _ => .truncated
  | .truncatedFloat _ _ _ => .truncated
  | .truncatedItems _ _ => .truncated
  | .optionFlag _ _ => .discriminant
  | .variantTag _ _ _ _ => .discriminant
  | .boolByte _ _ => .encoding
  | .utf8 _ _ => .encoding
  | .trailing _ _ => .trailing
  | .floatWidth => .type
  | .size _ => .overflow

/-- The error is about bytes that may not stand where they stand. -/
def IsLocated (x : DecodeError) : Prop := x.category = .encoding ∨ x.category = .discriminant

/-- The error as it is met `by'` bytes further on. -/
def shift (by' : Nat) : DecodeError → DecodeError
  | .truncated needed offset left => .truncated needed (by' + offset) left
  | .truncatedFloat needed offset left => .truncatedFloat needed (by' + offset) left
  | .optionFlag flag offset => .optionFlag flag (by' + offset)
  | .variantTag schema tag offset count => .variantTag schema tag (by' + offset) count
  | .boolByte byte offset => .boolByte byte (by' + offset)
  | .utf8 offset fault => .utf8 (by' + offset) fault
  | x => x

end DecodeError

/-! ### The same reading in a longer input -/

/-- The cursor with `after` behind what is left, `k` bytes further on. -/
def Cursor.extend (c : Cursor) (k : Nat) (after : Bytes) : Cursor := ⟨k + c.offset, c.rest ++ after⟩

/-- The second result is the first one, met `k` bytes further on with `after` behind it. -/
def Follows {α : Type} (k : Nat) (after : Bytes) (r r' : Except DecodeError (α × Cursor)) : Prop :=
  (∀ a c, r = .ok (a, c) → r' = .ok (a, c.extend k after)) ∧
    ∀ x, r = .error x → x.IsLocated → r' = .error (x.shift k)

namespace Follows

variable {α β : Type} {k : Nat} {after : Bytes}

theorem ok (a : α) (c : Cursor) : Follows k after (.ok (a, c)) (.ok (a, c.extend k after)) := by
  refine ⟨fun a' c' h => ?_, nofun⟩
  cases h
  rfl

theorem located (x : DecodeError) :
    Follows k after (.error x : Except DecodeError (α × Cursor)) (.error (x.shift k)) := by
  refine ⟨nofun, fun y h _ => ?_⟩
  cases h
  rfl

theorem unlocated {x : DecodeError} (hx : x.category ∈ [.truncated, .type, .overflow])
    (r : Except DecodeError (α × Cursor)) : Follows k after (.error x) r := by
  refine ⟨nofun, fun y h hy => ?_⟩
  cases h
  rcases hy with hy | hy
  · simp [hy] at hx
  · simp [hy] at hx

theorem bind {r r' : Except DecodeError (α × Cursor)}
    {g g' : α × Cursor → Except DecodeError (β × Cursor)} (h : Follows k after r r')
    (hg : ∀ a c, Follows k after (g (a, c)) (g' (a, c.extend k after))) :
    Follows k after (r >>= g) (r' >>= g') := by
  cases r with
  | ok x =>
    obtain ⟨a, c⟩ := x
    rw [h.1 a c rfl]
    exact hg a c
  | error x =>
    refine ⟨nofun, fun y hy hl => ?_⟩
    cases hy
    rw [h.2 x rfl hl]
    rfl

theorem map {r r' : Except DecodeError (α × Cursor)} (g : α → β) (h : Follows k after r r') :
    Follows k after (r.map fun x => (g x.1, x.2)) (r'.map fun x => (g x.1, x.2)) := by
  cases r with
  | ok x =>
    obtain ⟨a, c⟩ := x
    rw [h.1 a c rfl]
    exact .ok (g a) c
  | error x =>
    refine ⟨nofun, fun y hy hl => ?_⟩
    cases hy
    rw [h.2 x rfl hl]
    rfl

theorem take (c : Cursor) (size : Nat) :
    Follows k after (c.take size) ((c.extend k after).take size) := by
  by_cases hl : size ≤ c.rest.length
  · have h : c.take size = .ok (c.rest.take size, ⟨c.offset + size, c.rest.drop size⟩) :=
      if_pos (List.length_take_of_le hl)
    have h' : (c.extend k after).take size = .ok (c.rest.take size,
        (⟨c.offset + size, c.rest.drop size⟩ : Cursor).extend k after) := by
      refine Cursor.take_eq_ok.mpr ⟨List.length_take_of_le hl, ?_, ?_⟩
      · show c.rest ++ after = c.rest.take size ++ (c.rest.drop size ++ after)
        rw [← List.append_assoc, List.take_append_drop]
      · exact (Nat.add_assoc k c.offset size).symm
    rw [h, h']
    exact .ok _ _
  · have h : c.take size = .error (.truncated size c.offset c.rest.length) :=
      if_neg (by simpa [List.length_take] using hl)
    rw [h]
    exact .unlocated (by simp [DecodeError.category]) _

theorem next (c : Cursor) : Follows k after c.next (c.extend k after).next := by
  obtain ⟨offset, rest⟩ := c
  cases rest with
  | nil => exact .unlocated (by simp [DecodeError.category]) _
  | cons b rest =>
    exact .ok b ⟨offset + 1, rest⟩

theorem length (c : Cursor) : Follows k after c.length (c.extend k after).length :=
  (take c lengthSize).bind fun _ _ => .ok _ _

end Follows

namespace Schema

open Reader

variable {k : Nat} {after : Bytes}

theorem follows_items {f : Reader Value} (hf : ∀ c, Follows k after (f c) (f (c.extend k after)))
    (count : Nat) (c : Cursor) :
    Follows k after (readItems f count c) (readItems f count (c.extend k after)) := by
  induction count generalizing c with
  | zero => exact .ok [] c
  | succ count ih => exact (hf c).bind fun _ c => (ih c).bind fun _ _ => .ok _ _

theorem follows_fields {fields : List (Text × Schema)}
    (hf : ∀ f ∈ fields, ∀ c, Follows k after (read f.2 c) (read f.2 (c.extend k after))) (c : Cursor) :
    Follows k after (readFields fields c) (readFields fields (c.extend k after)) := by
  induction fields generalizing c with
  | nil => exact .ok [] c
  | cons f fields ih =>
    exact (hf f List.mem_cons_self c).bind fun _ c =>
      (ih (fun g hg => hf g (List.mem_cons_of_mem f hg)) c).bind fun _ _ => .ok _ _

/-- A reading goes the same way in a longer input, some bytes further on. -/
theorem follows_read (s : Schema) (c : Cursor) :
    Follows k after (read s c) (read s (c.extend k after)) := by
  induction s generalizing c with
  | integer w signed => exact (Follows.take c w.bytes).bind fun _ _ => .ok _ _
  | floatInteger w signed =>
    unfold read readFloatInteger
    split
    · exact .unlocated (by simp [DecodeError.category]) _
    · exact .unlocated (by simp [DecodeError.category]) _
  | bool =>
    refine (Follows.next c).bind fun b c₁ => ?_
    dsimp only
    split
    · exact .ok _ _
    · exact .located _
  | text =>
    refine (Follows.length c).bind fun n c₁ => (Follows.take c₁ n).bind fun raw c₂ => ?_
    dsimp only
    split
    · exact .ok _ _
    · exact .located _
  | bytes => exact (Follows.length c).bind fun n c₁ => (Follows.take c₁ n).bind fun _ _ => .ok _ _
  | fixedBytes length => exact (Follows.take c length).bind fun _ _ => .ok _ _
  | option inner ih =>
    refine (Follows.next c).bind fun flag c₁ => ?_
    dsimp only
    split
    · exact .ok _ _
    · split
      · exact ih c₁
      · exact .located _
  | vec inner ih =>
    refine (Follows.length c).bind fun count c₁ => ?_
    dsimp only
    cases inner.minSize.bind (Quantity.int count).mul with
    | error fault => exact .unlocated (by simp [DecodeError.category]) _
    | ok least =>
      show Follows k after (if (Quantity.int c₁.rest.length).less least then _ else _)
        (if (Quantity.int (c₁.extend k after).rest.length).less least then _ else _)
      cases hless : (Quantity.int c₁.rest.length).less least with
      | true => exact .unlocated (by simp [DecodeError.category]) _
      | false =>
        -- With more bytes left, the number of items passes all the more.
        have hle : (c₁.rest.length : Int) ≤ (c₁.extend k after).rest.length := by
          simp [Cursor.extend]
        rw [Quantity.not_less_mono hle hless]
        exact (follows_items ih count c₁).bind fun _ _ => .ok _ _
  | array inner length ih => exact (follows_items ih length c).bind fun _ _ => .ok _ _
  | record fields ih => exact (follows_fields ih c).bind fun _ _ => .ok _ _
  | union variants ih =>
    refine (Follows.next c).bind fun tag c₁ => ?_
    dsimp only
    rw [readVariant_eq, readVariant_eq]
    cases hv : variants[tag.toNat]? with
    | none => exact .located _
    | some variant =>
      exact (ih variant (List.mem_of_getElem? hv) c₁).map fun payload =>
        Value.map [(.text variant.1, payload)]

end Schema

/-! ### Windows -/

/-- The result says that the input is too short. -/
def Truncates {α : Type} (r : Except DecodeError α) : Prop :=
  ∃ x, r = .error x ∧ x.category = .truncated

theorem Truncates.bind {α β : Type} {r : Except DecodeError α} (h : Truncates r)
    (g : α → Except DecodeError β) : Truncates (r >>= g) := by
  obtain ⟨x, rfl, hx⟩ := h
  exact ⟨x, rfl, hx⟩

/-- Where the window stands, just it is read, and as `a`, if it is not refused as too short; and a
part of the window is refused as too short. -/
structure Reader.Windowed {α : Type} (f : Reader α) (window : Bytes) (a : α) : Prop where
  whole : ∀ offset rest, f ⟨offset, window ++ rest⟩ = .ok (a, ⟨offset + window.length, rest⟩) ∨
    Truncates (f ⟨offset, window ++ rest⟩)
  cut : ∀ offset front back, front ++ back = window → back ≠ [] → Truncates (f ⟨offset, front⟩)

namespace Reader.Windowed

variable {α β : Type} {f : Reader α} {u w : Bytes} {a : α} {b : β}

theorem ok (a : α) : Windowed (fun c => .ok (a, c)) [] a where
  whole _ _ := .inl rfl
  cut _ _ _ h hne := absurd (List.append_eq_nil_iff.mp h).2 hne

/-- One reader and then another, which is told where the first one began. -/
theorem bind {g : Cursor → α × Cursor → Except DecodeError (β × Cursor)} (hf : Windowed f u a)
    (hg : ∀ c₀, Windowed (fun c => g c₀ (a, c)) w b) :
    Windowed (fun c => f c >>= g c) (u ++ w) b where
  whole offset rest := by
    rw [List.append_assoc]
    rcases hf.whole offset (w ++ rest) with h | h
    · rw [h]
      have := (hg ⟨offset, u ++ (w ++ rest)⟩).whole (offset + u.length) rest
      rwa [Nat.add_assoc, ← List.length_append] at this
    · exact .inr (h.bind _)
  cut offset front back h hne := by
    have past : ∀ front', front' ++ back = w →
        Truncates (f ⟨offset, u ++ front'⟩ >>= g ⟨offset, u ++ front'⟩) := by
      intro front' h'
      rcases hf.whole offset front' with hok | htrunc
      · rw [hok]
        exact (hg _).cut _ front' back h' hne
      · exact htrunc.bind _
    rcases List.append_eq_append_iff.mp h with ⟨as, rfl, rfl⟩ | ⟨front', rfl, rfl⟩
    · by_cases has : as = []
      · subst has
        have := past [] rfl
        rwa [List.append_nil, List.append_nil] at this
      · exact (hf.cut offset front as rfl has).bind _
    · exact past front' rfl

/-- A check between them that finds the input too short. -/
theorem checked {p : Cursor → Bool} {x : DecodeError} (hx : x.category = .truncated)
    (hf : Windowed f w a) : Windowed (fun c => if p c then .error x else f c) w a where
  whole offset rest := by
    by_cases h : p ⟨offset, w ++ rest⟩
    · rw [if_pos h]
      exact .inr ⟨x, rfl, hx⟩
    · rw [if_neg h]
      exact hf.whole offset rest
  cut offset front back h hne := by
    by_cases hp : p ⟨offset, front⟩
    · rw [if_pos hp]
      exact ⟨x, rfl, hx⟩
    · rw [if_neg hp]
      exact hf.cut offset front back h hne

/-- The last step of a reader. -/
theorem map (g : α → β) (hf : Windowed f w a) :
    Windowed (fun c => f c >>= fun x => .ok (g x.1, x.2)) w (g a) := by
  have := hf.bind (g := fun _ x => .ok (g x.1, x.2)) fun _ => .ok (g a)
  rwa [List.append_nil] at this

theorem take (body : Bytes) : Windowed (Cursor.take · body.length) body body where
  whole offset rest := .inl (Cursor.take_eq_ok.mpr ⟨rfl, rfl, rfl⟩)
  cut offset front back h hne := by
    have hlt : front.length < body.length := by
      have := List.length_pos_iff.mpr hne
      rw [← h, List.length_append]
      omega
    have hne' : (front.take body.length).length ≠ body.length := by
      rw [List.length_take]
      omega
    exact ⟨.truncated body.length offset front.length, if_neg hne', rfl⟩

theorem next (b : UInt8) : Windowed Cursor.next [b] b where
  whole _ _ := .inl rfl
  cut offset front back h hne := by
    cases front with
    | nil => exact ⟨_, rfl, rfl⟩
    | cons b' front =>
      have := (List.cons.inj h).2
      exact absurd (List.append_eq_nil_iff.mp this).2 hne

theorem length {n : Nat} (h : n ≤ maxLength) :
    Windowed Cursor.length (Bytes.ofNatLE lengthSize n) n := by
  have := (take (Bytes.ofNatLE lengthSize n)).map Bytes.toNatLE
  have hlt : n < 256 ^ lengthSize := Nat.lt_succ_of_le h
  rw [Bytes.toNatLE_ofNatLE, Nat.mod_eq_of_lt hlt, Bytes.length_ofNatLE] at this
  exact this

end Reader.Windowed

namespace Schema

open Reader

variable {r : Rules} {s inner : Schema} {fields : List (Text × Schema)} {v : Value} {bs : Bytes}

theorem windowed_items {items : List Value} {parts : List Bytes}
    (h : List.Forall₂ (fun item part => Windowed (read inner) part item) items parts) :
    Windowed (readItems (read inner) items.length) parts.flatten items := by
  induction h with
  | nil => exact .ok []
  | @cons item part items parts head _ ih => exact head.bind fun _ => ih.map (item :: ·)

theorem windowed_rows {rows : List Row}
    (h : ∀ row ∈ rows, Windowed (read row.schema) row.bytes row.value) :
    Windowed (readFields (rows.map Row.field)) (rows.map (·.bytes)).flatten (rows.map Row.entry) := by
  induction rows with
  | nil => exact .ok []
  | cons row rows ih =>
    obtain ⟨head, tail⟩ := List.forall_mem_cons.mp h
    exact head.bind fun _ => (ih tail).map (row.entry :: ·)

/-- A layout is a window for the value that it lays out. -/
theorem windowed_of_layout (hs : s.all isSound)
    (hc : ∀ inner count, r.counts inner count → Passable inner count) (h : Layout r s v bs) :
    Windowed (read s) bs v := by
  induction s generalizing v bs with
  | integer w signed =>
    cases h with
    | @integer _ _ n range =>
      have := (Windowed.take (Bytes.ofIntLE w.bytes n)).map fun raw =>
        Value.int (if signed then raw.toIntLE else raw.toNatLE)
      rw [Bytes.length_ofIntLE, toInt_ofIntLE range] at this
      exact this
  | floatInteger w signed => cases h
  | bool =>
    cases h with
    | bool b =>
      cases b with
      | false => exact (Windowed.next 0).bind fun _ => Windowed.ok (Value.bool false)
      | true => exact (Windowed.next 1).bind fun _ => Windowed.ok (Value.bool true)
  | text =>
    cases h with
    | @text t body utf8 fits =>
      have hw : Windowed (read .text) (Bytes.ofNatLE lengthSize body.length ++ (body ++ []))
          (.text t) := by
        refine (Windowed.length fits).bind fun _ => ?_
        refine (Windowed.take body).bind fun _ => ?_
        dsimp only
        rw [Utf8.decode_encode utf8]
        exact .ok (Value.text t)
      rwa [List.append_nil] at hw
  | bytes =>
    cases h with
    | bytes fits => exact (Windowed.length fits).bind fun _ => (Windowed.take _).map Value.bytes
  | fixedBytes length =>
    cases h with
    | fixedBytes => exact (Windowed.take _).map Value.bytes
  | option inner ih =>
    cases h with
    | none => exact (Windowed.next 0).bind fun _ => Windowed.ok Value.none
    | some _ payload => exact (Windowed.next 1).bind fun _ => ih (all_option hs) payload
  | vec inner ih =>
    cases h with
    | @vec _ items _ fits count parts =>
      obtain ⟨bodies, hp, rfl⟩ := layoutItems_iff.mp parts
      obtain ⟨left, least, hmul, -⟩ := hc _ _ count
      refine (Windowed.length fits).bind fun _ => ?_
      show Windowed (fun c => (inner.minSize.bind (Quantity.int items.length).mul).mapError
        DecodeError.size >>= _) _ _
      rw [hmul]
      exact ((windowed_items (hp.imp fun _ _ => ih (all_vec hs))).map Value.list).checked rfl
  | array inner length ih =>
    cases h with
    | array parts =>
      obtain ⟨bodies, hp, rfl⟩ := layoutItems_iff.mp parts
      exact (windowed_items (hp.imp fun _ _ => ih (all_array hs))).map Value.list
  | record fields ih =>
    cases h with
    | record parts =>
      obtain ⟨rows, rfl, rfl, hrows, rfl⟩ := layoutFields_iff.mp parts
      refine (windowed_rows fun row hrow => ?_).map Value.map
      have hmem := List.mem_map_of_mem (f := Row.field) hrow
      exact ih _ hmem (all_record hs _ hmem) (hrows row hrow)
  | union variants ih =>
    cases h with
    | @union _ index name t payload body variant part =>
      have hmem := List.mem_of_getElem? variant
      have hlt : index < variants.length := (List.getElem?_eq_some_iff.mp variant).1
      have htag : (UInt8.ofNat index).toNat = index :=
        Utf8.toNat_ofNat (Nat.lt_of_lt_of_le hlt (length_of_union hs))
      refine (Windowed.next (UInt8.ofNat index)).bind fun _ => ?_
      simp only [readVariant_eq, htag, variant, Option.map_some, Option.getD_some]
      exact (ih _ hmem (all_union hs _ hmem) part).map fun payload =>
        Value.map [(.text name, payload)]

/-! ### Local decoding -/

/-- What is decoded, and what is refused for the bytes that are there, does not depend on what stands
before and after it; a part of what was decoded is refused as too short, and a value that spans its
bytes is refused with more of them. -/
structure IsAnchored (s : Schema) : Prop where
  value : ∀ before data after v n, s.decodeAt data 0 = .ok (v, n) →
    s.decodeAt (before ++ data ++ after) before.length = .ok (v, before.length + n)
  error : ∀ before data after x, s.decodeAt data 0 = .error x → x.IsLocated →
    s.decodeAt (before ++ data ++ after) before.length = .error (x.shift before.length)
  cut : ∀ data v n k, s.decode data = .ok (v, n) → k < n → Truncates (s.decode (data.take k))
  trailing : ∀ data v after, s.deserialize data = .ok v → after ≠ [] →
    s.deserialize (data ++ after) = .error (.trailing s.describe after.length)
  part : ∀ data v k, s.deserialize data = .ok v → k < data.length →
    Truncates (s.deserialize (data.take k))

/-- The bytes that a value takes are enough to decode it. -/
def StandsAlone (s : Schema) : Prop :=
  ∀ data v n, s.decode data = .ok (v, n) → s.decode (data.take n) = .ok (v, n)

theorem follows_decodeAt (before data after : Bytes) :
    ∃ r r' : Except DecodeError (Value × Cursor), Follows before.length after r r' ∧
      s.decodeAt data 0 = r.map (fun x => (x.1, x.2.offset)) ∧
      s.decodeAt (before ++ data ++ after) before.length = r'.map (fun x => (x.1, x.2.offset)) := by
  refine ⟨_, _, follows_read s ⟨0, data⟩, rfl, ?_⟩
  unfold decodeAt
  rw [List.append_assoc, List.drop_left]
  rfl

theorem cut_decode (hs : s.all isSound) {data : Bytes} {n k : Nat}
    (h : s.decode data = .ok (v, n)) (hk : k < n) : Truncates (s.decode (data.take k)) := by
  obtain ⟨window, rest, rfl, rfl, hl⟩ := layout_of_decode h
  have hne : window.drop k ≠ [] := by
    rw [Ne, List.drop_eq_nil_iff]
    omega
  obtain ⟨x, hx, hcat⟩ := (windowed_of_layout hs (fun _ _ h => h) hl).cut 0 (window.take k)
    (window.drop k) (List.take_append_drop k window) hne
  refine ⟨x, ?_, hcat⟩
  rw [List.take_append_of_le_length (Nat.le_of_lt hk)]
  unfold decode decodeAt
  rw [List.drop_zero, hx]
  rfl

theorem decodeAt_value {before data after : Bytes} {n : Nat}
    (h : s.decodeAt data 0 = .ok (v, n)) :
    s.decodeAt (before ++ data ++ after) before.length = .ok (v, before.length + n) := by
  obtain ⟨r, r', hf, hr, hr'⟩ := follows_decodeAt (s := s) before data after
  rw [hr] at h
  obtain ⟨⟨v', c⟩, hc, h⟩ := map_eq_ok.mp h
  cases h
  rw [hr', hf.1 _ _ hc]
  rfl

theorem decodeAt_error {before data after : Bytes} {x : DecodeError}
    (h : s.decodeAt data 0 = .error x) (hx : x.IsLocated) :
    s.decodeAt (before ++ data ++ after) before.length = .error (x.shift before.length) := by
  obtain ⟨r, r', hf, hr, hr'⟩ := follows_decodeAt (s := s) before data after
  rw [hr] at h
  rw [hr', hf.2 x (map_eq_error.mp h) hx]
  rfl

theorem deserialize_append {data after : Bytes} (h : s.deserialize data = .ok v) (hne : after ≠ []) :
    s.deserialize (data ++ after) = .error (.trailing s.describe after.length) := by
  have hdecode : s.decode (data ++ after) = .ok (v, data.length) := by
    have : s.decodeAt ([] ++ data ++ after) 0 = _ := decodeAt_value (deserialize_eq_ok.mp h)
    rwa [List.nil_append, List.length_nil, Nat.zero_add] at this
  have hlen : data.length ≠ (data ++ after).length := by
    have := List.length_pos_iff.mpr hne
    rw [List.length_append]
    omega
  unfold deserialize
  rw [hdecode]
  show (if data.length = (data ++ after).length then _ else _) = _
  rw [if_neg hlen, List.length_append, Nat.add_sub_cancel_left]

theorem cut_deserialize (hs : s.all isSound) {data : Bytes} {k : Nat}
    (h : s.deserialize data = .ok v) (hk : k < data.length) :
    Truncates (s.deserialize (data.take k)) :=
  (cut_decode hs (deserialize_eq_ok.mp h) hk).bind _

theorem isAnchored (hs : s.all isSound) : IsAnchored s where
  value _ _ _ _ _ := decodeAt_value
  error _ _ _ _ := decodeAt_error
  cut _ _ _ _ := cut_decode hs
  trailing _ _ _ := deserialize_append
  part _ _ _ := cut_deserialize hs

theorem standsAlone_of_fits (hs : s.all isSound) (hf : Fits Passable s 0) : StandsAlone s := by
  intro data v n h
  obtain ⟨window, rest, rfl, rfl, hl⟩ := layout_of_decode h
  rw [List.take_left]
  have := decode_of_takes (takes_of_layout hs hl hf (Nat.zero_le ([] : Bytes).length))
  rwa [List.append_nil] at this

theorem fits_of_standsAlone (hs : s.all isSound) (h : StandsAlone s) : Fits Passable s 0 := by
  by_contra hf
  obtain ⟨v, bs, rest, -, hd, hne⟩ := exists_decoded hs hf
  have := h _ v _ hd
  rw [List.take_left] at this
  exact hne _ this

/-- Decoding with a schema that was built is anchored, always; that the bytes of a value stand alone
fails for just the schemas inside of which a list is not let through. -/
theorem isAnchored_and_standsAlone_iff_fits (b : Blueprint) (s : Schema) (h : b.build = .ok s) :
    IsAnchored s ∧ (StandsAlone s ↔ Fits Passable s 0) ∧
      (b.wholeWidths → StandsAlone s ∧
        ∀ v bs, s.encode v = .ok bs → ∃ n, s.deserialize bs = .ok n) := by
  have hs := Blueprint.sound_of_build h
  refine ⟨isAnchored hs, ⟨fits_of_standsAlone hs, standsAlone_of_fits hs⟩, fun hw => ?_⟩
  have he := Blueprint.exact_of_build hw h
  refine ⟨standsAlone_of_fits hs (fits_of_exact hs he _ _), fun v bs hv => ?_⟩
  obtain ⟨n, -, hd, -⟩ := roundTrips_of_fits hs (fits_of_exact hs he _ _) v bs hv
  have := hd []
  rw [List.append_nil] at this
  exact ⟨n, deserialize_eq_ok.mpr this⟩

theorem standsAlone_records :
    (Blueprint.vec (.record [(.text "n", .integer (.int 16) (.bool false))])).build =
        .ok (.vec (.record [("n", .integer .w16 false)])) ∧
      IsAnchored (.vec (.record [("n", .integer .w16 false)])) ∧
      StandsAlone (.vec (.record [("n", .integer .w16 false)])) :=
  have h := isAnchored_and_standsAlone_iff_fits
    (.vec (.record [(.text "n", .integer (.int 16) (.bool false))])) _ rfl
  ⟨rfl, h.1, (h.2.2 rfl).1⟩

/-- The five bytes that `misjudged` takes of six are not enough on their own. -/
theorem misjudged_not_alone :
    (Blueprint.vec Blueprint.misjudged).build = .ok (.vec misjudged) ∧
      decode (.vec misjudged) [1, 0, 0, 0, 1, 255] = .ok (.list [.map [(.text "b", .list [])]], 5) ∧
      decode (.vec misjudged) (List.take 5 [1, 0, 0, 0, 1, 255]) =
        .error (.truncatedItems (describe (.vec misjudged)) 1) ∧
      ¬ StandsAlone (.vec misjudged) :=
  ⟨Blueprint.build_misjudged, decode_misjudged_spare, decode_misjudged, fun h => by
    cases (h _ _ _ decode_misjudged_spare).symm.trans decode_misjudged⟩

end Schema

end LedgerWire
