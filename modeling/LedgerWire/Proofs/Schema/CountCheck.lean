import LedgerWire.Proofs.Schema.Locality

/-!
# The check of a count

A list of any length is an announced number of items, read as a list of that length is; only the check
of the number comes first. Reading goes the same way some bytes further on (`read_advance`), so both are
told the same value or the same error, unless the check refuses the number. It refuses too many items
for what is left, and no list that could be read, for just the schemas of which it lets every list of
shortest items through.
-/

namespace LedgerWire

/-! ### The same reading further on -/

/-- The same bytes are left, `k` bytes further on. -/
def Cursor.advance (k : Nat) (c : Cursor) : Cursor := ⟨k + c.offset, c.rest⟩

/-- A result as it is met `k` bytes further on. -/
def advanced {α : Type} (k : Nat) (r : Except DecodeError (α × Cursor)) :
    Except DecodeError (α × Cursor) :=
  (r.map fun x => (x.1, x.2.advance k)).mapError (·.shift k)

section Advance

variable {α β : Type} {k : Nat} {r r' : Except DecodeError (α × Cursor)}

@[simp]
theorem advanced_ok (a : α) (c : Cursor) : advanced k (.ok (a, c)) = .ok (a, c.advance k) := rfl

theorem advanced_bind {g g' : α × Cursor → Except DecodeError (β × Cursor)} (h : r' = advanced k r)
    (hg : ∀ a c, g' (a, c.advance k) = advanced k (g (a, c))) :
    r' >>= g' = advanced k (r >>= g) := by
  subst h
  cases r with
  | error x => rfl
  | ok x => exact hg x.1 x.2

theorem advanced_map (g : α → β) (h : r' = advanced k r) :
    (r'.map fun x => (g x.1, x.2)) = advanced k (r.map fun x => (g x.1, x.2)) := by
  subst h
  cases r <;> rfl

namespace Cursor

@[simp] theorem take_advance (c : Cursor) (size : Nat) :
    (c.advance k).take size = advanced k (c.take size) := by
  unfold take
  dsimp only
  by_cases h : (c.rest.take size).length = size
  · rw [if_pos h]
    refine (if_pos h).trans ?_
    rw [advanced_ok, advance, advance, Nat.add_assoc]
  · rw [if_neg h]
    exact if_neg h

@[simp] theorem next_advance (c : Cursor) : (c.advance k).next = advanced k c.next := by
  obtain ⟨offset, rest⟩ := c
  cases rest with
  | nil => rfl
  | cons b rest => rfl

@[simp] theorem length_advance (c : Cursor) : (c.advance k).length = advanced k c.length :=
  advanced_bind (take_advance c lengthSize) fun _ _ => rfl

end Cursor

end Advance

namespace Schema

open Reader

variable {s : Schema} {k : Nat}

theorem readItems_advance {f : Reader Value} (hf : ∀ c, f (c.advance k) = advanced k (f c))
    (count : Nat) (c : Cursor) :
    readItems f count (c.advance k) = advanced k (readItems f count c) := by
  induction count generalizing c with
  | zero => rfl
  | succ count ih => exact advanced_bind (hf c) fun _ c => advanced_bind (ih c) fun _ _ => rfl

theorem readFields_advance {fields : List (Text × Schema)}
    (hf : ∀ f ∈ fields, ∀ c, read f.2 (c.advance k) = advanced k (read f.2 c)) (c : Cursor) :
    readFields fields (c.advance k) = advanced k (readFields fields c) := by
  induction fields generalizing c with
  | nil => rfl
  | cons f fields ih =>
    exact advanced_bind (hf f List.mem_cons_self c) fun _ c =>
      advanced_bind (ih (fun g hg => hf g (List.mem_cons_of_mem f hg)) c) fun _ _ => rfl

/-- What is read depends on what is left alone; the place where that begins is counted on. -/
theorem read_advance (s : Schema) (c : Cursor) : read s (c.advance k) = advanced k (read s c) := by
  induction s generalizing c with
  | integer w signed => exact advanced_bind (c.take_advance w.bytes) fun _ _ => rfl
  | floatInteger w signed =>
    unfold read readFloatInteger
    by_cases h : c.rest.length < w.bytes
    · rw [if_pos h]
      exact if_pos h
    · rw [if_neg h]
      exact if_neg h
  | bool =>
    refine advanced_bind c.next_advance fun b c₁ => ?_
    dsimp only
    split <;> rfl
  | text =>
    refine advanced_bind c.length_advance fun n c₁ => ?_
    refine advanced_bind (c₁.take_advance n) fun raw c₂ => ?_
    dsimp only
    split <;> rfl
  | bytes =>
    exact advanced_bind c.length_advance fun n c₁ =>
      advanced_bind (c₁.take_advance n) fun _ _ => rfl
  | fixedBytes length => exact advanced_bind (c.take_advance length) fun _ _ => rfl
  | option inner ih =>
    refine advanced_bind c.next_advance fun flag c₁ => ?_
    dsimp only
    split
    · rfl
    · split
      · exact ih c₁
      · rfl
  | vec inner ih =>
    refine advanced_bind c.length_advance fun count c₁ => ?_
    dsimp only
    cases inner.minSize.bind (Quantity.int count).mul with
    | error fault => rfl
    | ok least =>
      show (if (Quantity.int c₁.rest.length).less least then _ else _) =
        advanced k (if (Quantity.int c₁.rest.length).less least then _ else _)
      split
      · rfl
      · exact advanced_bind (readItems_advance ih count c₁) fun _ _ => rfl
  | array inner length ih => exact advanced_bind (readItems_advance ih length c) fun _ _ => rfl
  | record fields ih => exact advanced_bind (readFields_advance ih c) fun _ _ => rfl
  | union variants ih =>
    refine advanced_bind c.next_advance fun tag c₁ => ?_
    dsimp only
    rw [readVariant_eq, readVariant_eq]
    cases hv : variants[tag.toNat]? with
    | none => rfl
    | some variant =>
      exact advanced_map (fun payload => Value.map [(.text variant.1, payload)])
        (ih variant (List.mem_of_getElem? hv) c₁)

/-! ### Announced items -/

/-- So many items are announced, and `data` follows. -/
def announced (count : Nat) (data : Bytes) : Bytes := Bytes.ofNatLE lengthSize count ++ data

/-- The fewest bytes of a value are told, and are more than none. -/
def TakesBytes (s : Schema) : Prop :=
  ∃ size, s.minSize = .ok size ∧ (Quantity.int 0).less size

/-- Where just the shortest items are left, any number of them is let through. -/
def AdmitsShortest (s : Schema) : Prop :=
  ∀ m, shortest? s = some m → ∀ count, count ≤ maxLength → Admits s count (count * m)

/-- A list of announced items is decoded as a list of that length is, and told the same errors, 4 bytes
further on; at most it is refused as too short. It has no more items than bytes after their number. -/
structure ChecksFirst (s : Schema) : Prop where
  value : ∀ count data v n, count < 2 ^ 32 → (vec s).decode (announced count data) = .ok (v, n) →
    ∃ m, (array s count).decode data = .ok (v, m) ∧ n = lengthSize + m
  error : ∀ count data x, count < 2 ^ 32 → (vec s).decode (announced count data) = .error x →
    x.category ≠ .truncated →
    ∃ y, (array s count).decode data = .error y ∧ y.category = x.category ∧ y.shift lengthSize = x
  refused : ∀ count data y, count < 2 ^ 32 → (array s count).decode data = .error y →
    ∃ x, (vec s).decode (announced count data) = .error x ∧
      (x.category = y.category ∨ x.category = .truncated)
  bound : ∀ data offset v n, (vec s).decodeAt data offset = .ok (v, n) →
    ∃ items, v = .list items ∧ offset + lengthSize + items.length ≤ n ∧ n ≤ data.length

/-- The check of the number makes no difference to what is decoded. -/
def SameValues (s : Schema) : Prop :=
  ∀ count data v n, count < 2 ^ 32 → ((vec s).decode (announced count data) = .ok (v, lengthSize + n) ↔
    (array s count).decode data = .ok (v, n))

variable {count : Nat} {data : Bytes} {v : Value} {m n : Nat}

@[simp] theorem category_shift (x : DecodeError) : (x.shift k).category = x.category := by
  cases x <;> rfl

theorem sized_of_takesBytes (h : TakesBytes s) : s.isSized := by
  obtain ⟨size, hsize, hpos⟩ := h
  simp [isSized, hsize, Quantity.isZero_of_pos hpos]

theorem read_vec_of_admits (hn : count ≤ maxLength) (ha : Admits s count data.length) :
    read (.vec s) ⟨0, announced count data⟩ =
      advanced lengthSize (read (.array s count) ⟨0, data⟩) := by
  obtain ⟨least, hmul, hless⟩ := ha
  unfold read
  rw [announced, Cursor.length_ofNatLE hn]
  show (s.minSize.bind (Quantity.int count).mul).mapError DecodeError.size >>= _ = _
  rw [hmul]
  refine (if_neg (by simp [hless])).trans ?_
  exact advanced_bind (readItems_advance (read_advance s) count ⟨0, data⟩) fun _ _ => rfl

theorem decode_vec_of_admits (hn : count ≤ maxLength) (ha : Admits s count data.length) :
    (vec s).decode (announced count data) =
      (((array s count).decode data).map fun x => (x.1, lengthSize + x.2)).mapError
        (·.shift lengthSize) := by
  unfold decode decodeAt
  rw [List.drop_zero, List.drop_zero, read_vec_of_admits hn ha]
  cases read (.array s count) ⟨0, data⟩ <;> rfl

theorem decode_vec_of_not_admits (hp : TakesBytes s) (hn : count ≤ maxLength)
    (ha : ¬ Admits s count data.length) :
    (vec s).decode (announced count data) = .error (.truncatedItems (describe (.vec s)) count) := by
  obtain ⟨size, hsize, -⟩ := hp
  obtain ⟨least, hmul⟩ := Quantity.count_mul (Nat.lt_succ_of_le hn) size
  have hleast : s.minSize.bind (Quantity.int count).mul = .ok least := by
    rw [hsize]
    exact hmul
  have hless : (Quantity.int data.length).less least = true := by
    by_contra h
    exact ha ⟨least, hleast, by simpa using h⟩
  unfold decode decodeAt
  rw [List.drop_zero, announced, read_vec_refused (Cursor.length_ofNatLE hn 0 data) hleast hless]
  rfl

theorem decode_array_of_vec (hp : TakesBytes s) (hn : count ≤ maxLength)
    (h : (vec s).decode (announced count data) = .ok (v, n)) :
    ∃ m, (array s count).decode data = .ok (v, m) ∧ n = lengthSize + m := by
  by_cases ha : Admits s count data.length
  · rw [decode_vec_of_admits hn ha, mapError_eq_ok, map_eq_ok] at h
    obtain ⟨⟨w, m⟩, harray, h⟩ := h
    cases h
    exact ⟨m, harray, rfl⟩
  · rw [decode_vec_of_not_admits hp hn ha] at h
    cases h

theorem array_error_of_vec (hp : TakesBytes s) (hn : count ≤ maxLength) {x : DecodeError}
    (h : (vec s).decode (announced count data) = .error x) (hx : x.category ≠ .truncated) :
    ∃ y, (array s count).decode data = .error y ∧ y.category = x.category ∧
      y.shift lengthSize = x := by
  by_cases ha : Admits s count data.length
  · rw [decode_vec_of_admits hn ha, mapError_eq_error] at h
    obtain ⟨y, hy, rfl⟩ := h
    exact ⟨y, map_eq_error.mp hy, (category_shift y).symm, rfl⟩
  · rw [decode_vec_of_not_admits hp hn ha] at h
    cases h
    exact absurd rfl hx

theorem vec_error_of_array (hp : TakesBytes s) (hn : count ≤ maxLength) {y : DecodeError}
    (h : (array s count).decode data = .error y) :
    ∃ x, (vec s).decode (announced count data) = .error x ∧
      (x.category = y.category ∨ x.category = .truncated) := by
  by_cases ha : Admits s count data.length
  · refine ⟨y.shift lengthSize, ?_, .inl (category_shift y)⟩
    rw [decode_vec_of_admits hn ha, h]
    rfl
  · exact ⟨_, decode_vec_of_not_admits hp hn ha, .inr rfl⟩

/-- Where the fewest bytes that are told are more than none, every item takes one. -/
theorem pos_of_takesBytes (hp : TakesBytes s) (hm : shortest? s = some m) : 0 < m := by
  obtain ⟨size, hsize, hpos⟩ := hp
  rcases Nat.eq_zero_or_pos m with rfl | h
  · rw [(isNull_of_shortest hm hsize).not_less] at hpos
    cases hpos
  · exact h

theorem length_le_of_layout {r : Rules} (hp : TakesBytes s) {items : List Value} {body : Bytes}
    (h : LayoutItems r s items body) : items.length ≤ body.length := by
  obtain ⟨parts, hparts, rfl⟩ := layoutItems_iff.mp h
  cases hparts with
  | nil => exact Nat.zero_le _
  | cons head tail =>
    obtain ⟨m, hm, -⟩ := le_of_layout head
    calc _ ≤ _ * m := Nat.le_mul_of_pos_right _ (pos_of_takesBytes hp hm)
      _ ≤ _ := le_of_layoutItems le_of_layout (.cons head tail) hm

theorem bound_of_decodeAt (hp : TakesBytes s) {offset : Nat}
    (h : (vec s).decodeAt data offset = .ok (v, n)) :
    ∃ items, v = .list items ∧ offset + lengthSize + items.length ≤ n ∧ n ≤ data.length := by
  obtain ⟨⟨w, c⟩, hread, h⟩ := map_eq_ok.mp h
  cases h
  obtain ⟨window, ⟨hrest, hoffset⟩, hl⟩ := layout_of_read hread
  cases hl with
  | @vec _ items body fits count parts =>
    have hbody := length_le_of_layout hp parts
    have hlen := congrArg List.length hrest
    simp only [List.length_drop, List.length_append, Bytes.length_ofNatLE] at hlen hoffset
    have hsize : 0 < lengthSize := by decide
    exact ⟨items, rfl, by omega, by omega⟩

theorem checksFirst (hp : TakesBytes s) : ChecksFirst s where
  value _ _ _ _ hn := decode_array_of_vec hp (Nat.le_of_lt_succ hn)
  error _ _ _ hn := array_error_of_vec hp (Nat.le_of_lt_succ hn)
  refused _ _ _ hn := vec_error_of_array hp (Nat.le_of_lt_succ hn)
  bound _ _ _ _ := bound_of_decodeAt hp

/-- The items that were decoded take as many bytes as so many of the shortest. -/
theorem admits_of_decode_array (hp : TakesBytes s) (ha : AdmitsShortest s) (hn : count ≤ maxLength)
    (h : (array s count).decode data = .ok (v, n)) : Admits s count data.length := by
  obtain ⟨window, rest, rfl, rfl, hl⟩ := layout_of_decode h
  cases hl with
  | @array _ items _ parts =>
    obtain ⟨bodies, hparts, rfl⟩ := layoutItems_iff.mp parts
    cases hparts with
    | nil => exact admits_zero (sized_of_takesBytes hp) _
    | cons head tail =>
      obtain ⟨m, hm, -⟩ := le_of_layout head
      have hle := le_of_layoutItems le_of_layout (.cons head tail) hm
      refine (ha m hm _ hn).mono (Nat.le_trans hle ?_)
      rw [List.length_append]
      exact Nat.le_add_right _ _

theorem sameValues_of_admits (hp : TakesBytes s) (ha : AdmitsShortest s) : SameValues s := by
  intro count data v n hlt
  have hn : count ≤ maxLength := Nat.le_of_lt_succ hlt
  constructor
  · intro h
    obtain ⟨m, harray, heq⟩ := decode_array_of_vec hp hn h
    rwa [Nat.add_left_cancel heq]
  · intro h
    rw [decode_vec_of_admits hn (admits_of_decode_array hp ha hn h), h]
    rfl

/-- A list of shortest items is decoded without the check, and so it has to be let through. -/
theorem admits_of_sameValues (hs : s.all isSound) (h : SameValues s) : AdmitsShortest s := by
  intro m hm count hn
  obtain ⟨item, light, hlight⟩ := exists_lightest hs hm
  have harray : (array s count).decode (List.replicate count light).flatten =
      .ok (.list (.replicate count item), (List.replicate count light).flatten.length) := by
    have := decode_of_takes ((hlight.array count).taken [])
    rwa [List.append_nil] at this
  have hvec := (h count _ _ _ (Nat.lt_succ_of_le hn)).mpr harray
  obtain ⟨rest, hread⟩ := decode_eq_ok.mp hvec
  obtain ⟨count', c, items, hcount, hadmits, -⟩ := read_vec.mp hread
  rw [announced, Cursor.length_ofNatLE hn] at hcount
  cases hcount
  simpa [hlight.length] using hadmits

/-- For items that take bytes, the check of their number costs no error of another sort, always; it
costs no value for just the schemas of which it lets every list of shortest items through. -/
theorem checksFirst_and_sameValues_iff (b : Blueprint) (s : Schema) (h : b.build = .ok s)
    (hp : TakesBytes s) :
    ChecksFirst s ∧ (SameValues s ↔ AdmitsShortest s) ∧ (b.wholeWidths → SameValues s) := by
  have hs := Blueprint.sound_of_build h
  refine ⟨checksFirst hp, ⟨admits_of_sameValues hs, sameValues_of_admits hp⟩, fun hw => ?_⟩
  refine sameValues_of_admits hp fun m hm count _ => ?_
  exact (admits_iff_of_exact hs (Blueprint.exact_of_build hw h) hm).mpr (le_refl _)

theorem sameValues_flags :
    (Blueprint.option .bool).build = .ok (.option .bool) ∧ TakesBytes (.option .bool) ∧
      SameValues (.option .bool) :=
  have hp : TakesBytes (.option .bool) := ⟨.int 1, rfl, rfl⟩
  ⟨rfl, hp, (checksFirst_and_sameValues_iff (.option .bool) _ rfl hp).2.2 rfl⟩

/-- The item without bytes is decoded, but not where its number is announced. -/
theorem misjudged_checked :
    (Blueprint.vec Blueprint.misjudged).build = .ok (.vec misjudged) ∧ TakesBytes misjudged ∧
      (array misjudged 1).decode [1] = .ok (.list [.map [(.text "b", .list [])]], 1) ∧
      (vec misjudged).decode (announced 1 [1]) =
        .error (.truncatedItems (describe (.vec misjudged)) 1) ∧
      ¬ SameValues misjudged := by
  have harray : (array misjudged 1).decode [1] = .ok (.list [.map [(.text "b", .list [])]], 1) := rfl
  refine ⟨Blueprint.build_misjudged, ⟨_, minSize_misjudged, rfl⟩, harray, decode_misjudged, fun h => ?_⟩
  cases decode_misjudged.symm.trans ((h 1 [1] _ 1 (by decide)).mpr harray)

end Schema

end LedgerWire
