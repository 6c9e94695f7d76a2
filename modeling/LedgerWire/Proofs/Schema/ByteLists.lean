import LedgerWire.Proofs.Schema.Locality

/-!
# Byte strings as lists of bytes

A byte string takes the same place on the wire as a list of integers of one byte. `Schema.asLists`
describes every byte string in that way, at any depth. Such a schema is built if the one that it comes
from is, it reads the same values from the same bytes, with byte strings spelled out as lists, and
whatever it writes is written in the same bytes by the one that it comes from.
-/

namespace LedgerWire

namespace Value

mutual

/-- Byte strings are spelled out as lists of integers. -/
def asLists : Value → Value
  | .bytes bs => .list (bs.map fun b => .int b.toNat)
  | .list items => .list (asListsItems items)
  | .map entries => .map (asListsEntries entries)
  | v => v

def asListsItems : List Value → List Value
  | [] => []
  | item :: items => asLists item :: asListsItems items

def asListsEntries : List (Value × Value) → List (Value × Value)
  | [] => []
  | (key, value) :: entries => (key, asLists value) :: asListsEntries entries

end

theorem asListsItems_eq (items : List Value) : asListsItems items = items.map asLists := by
  induction items with
  | nil => rfl
  | cons item items ih =>
    show asLists item :: asListsItems items = _
    rw [ih, List.map_cons]

@[simp]
theorem asLists_list (items : List Value) : asLists (.list items) = .list (items.map asLists) :=
  congrArg Value.list (asListsItems_eq items)

end Value

namespace Schema

mutual

/-- Byte strings are lists of integers of one byte. -/
def asLists : Schema → Schema
  | .bytes => .vec u8
  | .fixedBytes length => .array u8 length
  | .option inner => .option (asLists inner)
  | .vec inner => .vec (asLists inner)
  | .array inner length => .array (asLists inner) length
  | .record fields => .record (asListsEach fields)
  | .union variants => .union (asListsEach variants)
  | s => s

def asListsEach : List (Text × Schema) → List (Text × Schema)
  | [] => []
  | (name, s) :: fields => (name, asLists s) :: asListsEach fields

end

theorem asListsEach_eq (fields : List (Text × Schema)) :
    asListsEach fields = fields.map fun f => (f.1, f.2.asLists) := by
  induction fields with
  | nil => rfl
  | cons f fields ih =>
    show (f.1, f.2.asLists) :: asListsEach fields = _
    rw [ih, List.map_cons]

@[simp] theorem map_fst_asListsEach (fields : List (Text × Schema)) :
    (asListsEach fields).map (·.1) = fields.map (·.1) := by
  rw [asListsEach_eq, List.map_map]
  rfl

/-! ### The fewest bytes -/

theorem map_minSize_asListsEach {fields : List (Text × Schema)}
    (h : ∀ f ∈ fields, f.2.asLists.minSize = f.2.minSize) :
    (asListsEach fields).map (·.2.minSize) = fields.map (·.2.minSize) := by
  rw [asListsEach_eq, List.map_map]
  exact List.map_congr_left h

/-- The fewest bytes stay the same, also where they cannot be told. -/
@[simp] theorem minSize_asLists (s : Schema) : s.asLists.minSize = s.minSize := by
  induction s with
  | fixedBytes length =>
    show (.ok (.int (1 * (length : Int))) : Except Quantity.Fault Quantity) = .ok (.int length)
    rw [Int.one_mul]
  | array inner length ih =>
    show (inner.asLists.minSize >>= fun size => size.mul (.int length)) = _
    rw [ih]
    rfl
  | record fields ih => exact minSize_record_congr (map_minSize_asListsEach ih)
  | union variants ih => exact minSize_union_congr (map_minSize_asListsEach ih)
  | _ => rfl

@[simp] theorem isSized_asLists (s : Schema) : s.asLists.isSized = s.isSized := by
  simp [isSized]

@[simp] theorem namesSound_asLists (fields : List (Text × Schema)) :
    namesSound (asListsEach fields) = namesSound fields := by
  unfold namesSound
  rw [map_fst_asListsEach, asListsEach_eq, List.all_map]
  rfl

theorem isSound_union_asLists (variants : List (Text × Schema)) :
    (union (asListsEach variants)).isSound = (union variants).isSound := by
  show (namesSound (asListsEach variants) && !(asListsEach variants).isEmpty &&
    decide ((asListsEach variants).length ≤ maxVariants)) = _
  rw [namesSound_asLists, asListsEach_eq, List.isEmpty_map, List.length_map]
  rfl

end Schema

/-! ### The same calls -/

namespace Blueprint

mutual

/-- The calls with byte strings as lists of integers of one byte. -/
def asLists : Blueprint → Blueprint
  | .bytes => .vec (.integer (.int 8) (.bool false))
  | .fixedBytes length => .array (.integer (.int 8) (.bool false)) length
  | .option inner => .option (asLists inner)
  | .vec inner => .vec (asLists inner)
  | .array inner length => .array (asLists inner) length
  | .record fields => .record (asListsEach fields)
  | .union variants => .union (asListsEach variants)
  | b => b

def asListsEach : List (Value × Blueprint) → List (Value × Blueprint)
  | [] => []
  | (name, b) :: parts => (name, asLists b) :: asListsEach parts

end

theorem asListsEach_eq (parts : List (Value × Blueprint)) :
    asListsEach parts = parts.map fun part => (part.1, part.2.asLists) := by
  induction parts with
  | nil => rfl
  | cons part parts ih =>
    show (part.1, part.2.asLists) :: asListsEach parts = _
    rw [ih, List.map_cons]

variable {b : Blueprint} {s s' : Schema}

theorem offer_u8 : (integer (.int 8) (.bool false)).offer = .ok (.schema Schema.u8) := rfl

theorem sized_u8 : Schema.u8.isSized := rfl

/-- The calls offer these fields just if the calls they come from offer the fields that these come
from. -/
theorem offers_asLists {parts : List (Value × Blueprint)} {fields' : List (Text × Schema)}
    (ih : ∀ part ∈ parts, ∀ {s'}, part.2.asLists.offer = .ok (.schema s') ↔
      ∃ s, part.2.offer = .ok (.schema s) ∧ s.asLists = s') :
    Offers (asListsEach parts) fields' ↔
      ∃ fields, Offers parts fields ∧ Schema.asListsEach fields = fields' := by
  induction parts generalizing fields' with
  | nil =>
    constructor
    · rintro ⟨⟩
      exact ⟨[], .nil, rfl⟩
    · rintro ⟨_, ⟨⟩, rfl⟩
      exact .nil
  | cons part parts ihp =>
    obtain ⟨hpart, hparts⟩ := List.forall_mem_cons.mp ih
    constructor
    · rintro (_ | ⟨⟨hname, hoffer⟩, htail⟩)
      obtain ⟨s, hs, heq⟩ := hpart.mp hoffer
      obtain ⟨fields, hfields, rfl⟩ := (ihp hparts).mp htail
      refine ⟨(_, s) :: fields, .cons ⟨hname, hs⟩ hfields, ?_⟩
      exact congrArg (fun t => (_, t) :: Schema.asListsEach fields) heq
    · rintro ⟨_, _ | ⟨⟨hname, hoffer⟩, htail⟩, rfl⟩
      exact .cons ⟨hname, hpart.mpr ⟨_, hoffer, rfl⟩⟩ ((ihp hparts).mpr ⟨_, htail, rfl⟩)

/-- What is offered is the schema with byte strings as lists, and there is one if there was one. -/
theorem offer_asLists : b.asLists.offer = .ok (.schema s') ↔
    ∃ s, b.offer = .ok (.schema s) ∧ s.asLists = s' := by
  induction b generalizing s' with
  | value v => exact iff_of_false nofun nofun
  | integer bits signed =>
    show (integer bits signed).offer = _ ↔ _
    constructor
    · intro h
      refine ⟨s', h, ?_⟩
      obtain ⟨w, b, -, ⟨n, -, -, rfl⟩ | ⟨x, -, -, rfl⟩⟩ :=
        Schema.buildInteger_eq_ok.mp (offer_integer.mp h)
      · rfl
      · rfl
    · rintro ⟨s, h, rfl⟩
      obtain ⟨w, b, -, ⟨n, -, -, rfl⟩ | ⟨x, -, -, rfl⟩⟩ :=
        Schema.buildInteger_eq_ok.mp (offer_integer.mp h)
      · exact h
      · exact h
  | bool =>
    constructor
    · rintro ⟨⟩
      exact ⟨_, rfl, rfl⟩
    · rintro ⟨_, ⟨⟩, rfl⟩
      rfl
  | text =>
    constructor
    · rintro ⟨⟩
      exact ⟨_, rfl, rfl⟩
    · rintro ⟨_, ⟨⟩, rfl⟩
      rfl
  | bytes =>
    constructor
    · intro h
      obtain ⟨t, rfl, -, ht⟩ := offer_vec.mp h
      cases ht
      exact ⟨_, rfl, rfl⟩
    · rintro ⟨_, ⟨⟩, rfl⟩
      exact offer_vec.mpr ⟨_, rfl, sized_u8, offer_u8⟩
  | fixedBytes length =>
    constructor
    · intro h
      obtain ⟨t, n, rfl, -, hlength, ht⟩ := offer_array.mp h
      cases ht
      exact ⟨_, offer_fixedBytes.mpr ⟨n, hlength, rfl⟩, rfl⟩
    · rintro ⟨s, h, rfl⟩
      obtain ⟨n, hlength, rfl⟩ := offer_fixedBytes.mp h
      exact offer_array.mpr ⟨_, n, rfl, sized_u8, hlength, offer_u8⟩
  | option inner ih =>
    constructor
    · intro h
      obtain ⟨t, rfl, ht⟩ := offer_option.mp h
      obtain ⟨s, hs, rfl⟩ := ih.mp ht
      exact ⟨_, offer_option.mpr ⟨s, rfl, hs⟩, rfl⟩
    · rintro ⟨s, h, rfl⟩
      obtain ⟨t, rfl, ht⟩ := offer_option.mp h
      exact offer_option.mpr ⟨_, rfl, ih.mpr ⟨t, ht, rfl⟩⟩
  | vec inner ih =>
    constructor
    · intro h
      obtain ⟨t, rfl, hsized, ht⟩ := offer_vec.mp h
      obtain ⟨s, hs, rfl⟩ := ih.mp ht
      rw [Schema.isSized_asLists] at hsized
      exact ⟨_, offer_vec.mpr ⟨s, rfl, hsized, hs⟩, rfl⟩
    · rintro ⟨s, h, rfl⟩
      obtain ⟨t, rfl, hsized, ht⟩ := offer_vec.mp h
      rw [← Schema.isSized_asLists] at hsized
      exact offer_vec.mpr ⟨_, rfl, hsized, ih.mpr ⟨t, ht, rfl⟩⟩
  | array inner length ih =>
    constructor
    · intro h
      obtain ⟨t, n, rfl, hsized, hlength, ht⟩ := offer_array.mp h
      obtain ⟨s, hs, rfl⟩ := ih.mp ht
      rw [Schema.isSized_asLists] at hsized
      exact ⟨_, offer_array.mpr ⟨s, n, rfl, hsized, hlength, hs⟩, rfl⟩
    · rintro ⟨s, h, rfl⟩
      obtain ⟨t, n, rfl, hsized, hlength, ht⟩ := offer_array.mp h
      rw [← Schema.isSized_asLists] at hsized
      exact offer_array.mpr ⟨_, n, rfl, hsized, hlength, ih.mpr ⟨t, ht, rfl⟩⟩
  | record parts ih =>
    constructor
    · intro h
      obtain ⟨fields', rfl, hsound, ho⟩ := offer_record.mp h
      obtain ⟨fields, hfields, rfl⟩ := (offers_asLists ih).mp ho
      rw [Schema.namesSound_asLists] at hsound
      exact ⟨_, offer_record.mpr ⟨fields, rfl, hsound, hfields⟩, rfl⟩
    · rintro ⟨s, h, rfl⟩
      obtain ⟨fields, rfl, hsound, ho⟩ := offer_record.mp h
      rw [← Schema.namesSound_asLists] at hsound
      exact offer_record.mpr ⟨_, rfl, hsound, (offers_asLists ih).mpr ⟨fields, ho, rfl⟩⟩
  | union parts ih =>
    constructor
    · intro h
      obtain ⟨variants', rfl, hsound, ho⟩ := offer_union.mp h
      obtain ⟨variants, hvariants, rfl⟩ := (offers_asLists ih).mp ho
      rw [Schema.isSound_union_asLists] at hsound
      exact ⟨_, offer_union.mpr ⟨variants, rfl, hsound, hvariants⟩, rfl⟩
    · rintro ⟨s, h, rfl⟩
      obtain ⟨variants, rfl, hsound, ho⟩ := offer_union.mp h
      rw [← Schema.isSound_union_asLists] at hsound
      exact offer_union.mpr ⟨_, rfl, hsound, (offers_asLists ih).mpr ⟨variants, ho, rfl⟩⟩

theorem build_asLists : b.asLists.build = .ok s' ↔ ∃ s, b.build = .ok s ∧ s.asLists = s' := by
  simp only [build_eq_ok]
  exact offer_asLists

end Blueprint

/-! ### What is read -/

/-- Both results are values that end in the same place, the second value made of the first one, or both
are errors of one category. -/
def Agrees {α β : Type} (g : α → β) (r : Except DecodeError (α × Cursor))
    (r' : Except DecodeError (β × Cursor)) : Prop :=
  (∃ a c, r = .ok (a, c) ∧ r' = .ok (g a, c)) ∨
    ∃ x x', r = .error x ∧ r' = .error x' ∧ x.category = x'.category

namespace Agrees

variable {α β γ δ : Type}

theorem ok (g : α → β) (a : α) (c : Cursor) : Agrees g (.ok (a, c)) (.ok (g a, c)) :=
  .inl ⟨a, c, rfl, rfl⟩

theorem error (g : α → β) {x x' : DecodeError} (h : x.category = x'.category) :
    Agrees g (.error x) (.error x') :=
  .inr ⟨x, x', rfl, rfl, h⟩

theorem refl (r : Except DecodeError (α × Cursor)) : Agrees id r r := by
  cases r with
  | ok x => exact .ok id x.1 x.2
  | error x => exact .error id rfl

theorem bind {g : α → β} {h : γ → δ} {r : Except DecodeError (α × Cursor)}
    {r' : Except DecodeError (β × Cursor)} {f : α × Cursor → Except DecodeError (γ × Cursor)}
    {f' : β × Cursor → Except DecodeError (δ × Cursor)} (hr : Agrees g r r')
    (hf : ∀ a c, Agrees h (f (a, c)) (f' (g a, c))) : Agrees h (r >>= f) (r' >>= f') := by
  obtain ⟨a, c, rfl, rfl⟩ | ⟨x, x', rfl, rfl, hx⟩ := hr
  · exact hf a c
  · exact .error h hx

/-- The last step of two readers. -/
theorem map {g : α → β} {h : γ → δ} {r : Except DecodeError (α × Cursor)}
    {r' : Except DecodeError (β × Cursor)} (hr : Agrees g r r') (f : α → γ) (f' : β → δ)
    (hf : ∀ a, h (f a) = f' (g a)) :
    Agrees h (r.map fun x => (f x.1, x.2)) (r'.map fun x => (f' x.1, x.2)) := by
  obtain ⟨a, c, rfl, rfl⟩ | ⟨x, x', rfl, rfl, hx⟩ := hr
  · refine .inl ⟨f a, c, rfl, ?_⟩
    rw [hf a]
    rfl
  · exact .error h hx

end Agrees

namespace Schema

open Reader

/-- A byte as the list of a byte string shows it. -/
def byteItem (b : UInt8) : Value := .int b.toNat

theorem read_u8_cons (offset : Nat) (b : UInt8) (rest : Bytes) :
    read u8 ⟨offset, b :: rest⟩ = .ok (byteItem b, ⟨offset + 1, rest⟩) := by
  refine read_integer.mpr ⟨[b], Cursor.take_eq_ok.mpr ⟨rfl, rfl, rfl⟩, ?_⟩
  show Value.int ((b.toNat + 256 * 0 : Nat)) = _
  rw [Nat.mul_zero, Nat.add_zero]
  rfl

/-- Bytes that are left are read one by one. -/
theorem readItems_u8 (bs rest : Bytes) (offset : Nat) :
    readItems (read u8) bs.length ⟨offset, bs ++ rest⟩ =
      .ok (bs.map byteItem, ⟨offset + bs.length, rest⟩) := by
  induction bs generalizing offset with
  | nil => rfl
  | cons b bs ih =>
    have hitems := ih (offset + 1)
    rw [Nat.add_assoc, Nat.add_comm 1] at hitems
    exact readItems_succ.mpr ⟨_, _, _, read_u8_cons offset b (bs ++ rest), hitems, rfl⟩

theorem readItems_u8_short {count : Nat} {c : Cursor} (h : c.rest.length < count) :
    Truncates (readItems (read u8) count c) := by
  induction count generalizing c with
  | zero => exact absurd h (Nat.not_lt_zero _)
  | succ count ih =>
    obtain ⟨offset, rest⟩ := c
    show Truncates (read u8 ⟨offset, rest⟩ >>= fun x => readItems (read u8) count x.2 >>= _)
    cases rest with
    | nil => exact Truncates.bind ⟨_, rfl, rfl⟩ _
    | cons b rest =>
      rw [read_u8_cons]
      exact (ih (Nat.lt_of_succ_lt_succ h)).bind _

/-- Bytes are taken at once or one by one. -/
theorem agrees_take (count : Nat) (c : Cursor) :
    Agrees (List.map byteItem) (c.take count) (readItems (read u8) count c) := by
  by_cases hle : count ≤ c.rest.length
  · have hlen : (c.rest.take count).length = count := List.length_take_of_le hle
    have hitems := readItems_u8 (c.rest.take count) (c.rest.drop count) c.offset
    rw [hlen, List.take_append_drop] at hitems
    exact .inl ⟨_, _, if_pos hlen, hitems⟩
  · obtain ⟨x, hx, hcat⟩ := readItems_u8_short (Nat.lt_of_not_le hle)
    refine .inr ⟨_, x, if_neg ?_, hx, hcat.symm⟩
    rw [List.length_take]
    omega

theorem agrees_bytes (c : Cursor) : Agrees Value.asLists (read .bytes c) (read (.vec u8) c) := by
  refine (Agrees.refl c.length).bind fun count c₁ => ?_
  show Agrees _ _ (if (Quantity.int c₁.rest.length).less (.int (count * 1)) then _ else _)
  rw [Quantity.less_int, Int.mul_one]
  by_cases hless : (c₁.rest.length : Int) < count
  · -- Here one by one would end in the same way, yet the number of items is refused first.
    have htake : c₁.take count = .error (.truncated count c₁.offset c₁.rest.length) := by
      refine if_neg ?_
      rw [List.length_take]
      omega
    rw [if_pos (decide_eq_true hless)]
    show Agrees _ (c₁.take count >>= _) _
    rw [htake]
    exact .error _ rfl
  · rw [if_neg (by simpa using hless)]
    exact (agrees_take count c₁).bind fun _ _ => .ok _ _ _

theorem agrees_fixedBytes (length : Nat) (c : Cursor) :
    Agrees Value.asLists (read (.fixedBytes length) c) (read (.array u8 length) c) :=
  (agrees_take length c).bind fun _ _ => .ok _ _ _

/-- A reader of values without byte strings. -/
theorem agrees_self {r : Except DecodeError (Value × Cursor)}
    (h : ∀ v c, r = .ok (v, c) → v.asLists = v) : Agrees Value.asLists r r := by
  cases r with
  | ok x => exact .inl ⟨x.1, x.2, rfl, by rw [h x.1 x.2 rfl]⟩
  | error x => exact .error _ rfl

theorem agrees_option {inner inner' : Schema} {g : Value → Value} (hnone : g .none = .none)
    (h : ∀ c, Agrees g (read inner c) (read inner' c)) (c : Cursor) :
    Agrees g (read (.option inner) c) (read (.option inner') c) := by
  refine (Agrees.refl c.next).bind fun flag c₁ => ?_
  dsimp only [id]
  by_cases h0 : flag = 0
  · rw [if_pos h0, if_pos h0]
    exact .inl ⟨.none, c₁, rfl, by rw [hnone]; rfl⟩
  · rw [if_neg h0, if_neg h0]
    by_cases h1 : flag = 1
    · rw [if_pos h1, if_pos h1]
      exact h c₁
    · rw [if_neg h1, if_neg h1]
      exact .error _ rfl

theorem agrees_items {f f' : Reader Value} {g : Value → Value} (hf : ∀ c, Agrees g (f c) (f' c))
    (count : Nat) (c : Cursor) :
    Agrees (List.map g) (readItems f count c) (readItems f' count c) := by
  induction count generalizing c with
  | zero => exact .ok (List.map g) [] c
  | succ count ih =>
    exact (hf c).bind fun item c₁ => (ih c₁).bind fun items c₂ => .ok (List.map g) (item :: items) c₂

/-- The check of the number of items comes out the same where the fewest bytes of an item are. -/
theorem agrees_vec {inner inner' : Schema} {g h : Value → Value}
    (hlist : ∀ items, h (.list items) = .list (items.map g))
    (hsize : inner'.minSize = inner.minSize)
    (hitem : ∀ c, Agrees g (read inner c) (read inner' c)) (c : Cursor) :
    Agrees h (read (.vec inner) c) (read (.vec inner') c) := by
  refine (Agrees.refl c.length).bind fun count c₁ => ?_
  dsimp only [id]
  rw [hsize]
  cases inner.minSize.bind (Quantity.int count).mul with
  | error fault => exact .error _ rfl
  | ok least =>
    show Agrees _ (if (Quantity.int c₁.rest.length).less least then _ else _)
      (if (Quantity.int c₁.rest.length).less least then _ else _)
    by_cases hless : (Quantity.int c₁.rest.length).less least = true
    · rw [if_pos hless, if_pos hless]
      exact .error _ rfl
    · rw [if_neg hless, if_neg hless]
      refine (agrees_items hitem count c₁).bind fun items c₂ => ?_
      exact .inl ⟨.list items, c₂, rfl, by rw [hlist]; rfl⟩

theorem agrees_array {inner inner' : Schema} {g h : Value → Value}
    (hlist : ∀ items, h (.list items) = .list (items.map g))
    (hitem : ∀ c, Agrees g (read inner c) (read inner' c)) (length : Nat) (c : Cursor) :
    Agrees h (read (.array inner length) c) (read (.array inner' length) c) := by
  refine (agrees_items hitem length c).bind fun items c₁ => ?_
  exact .inl ⟨.list items, c₁, rfl, by rw [hlist]; rfl⟩

theorem agrees_fields {fields : List (Text × Schema)}
    (hf : ∀ f ∈ fields, ∀ c, Agrees Value.asLists (read f.2 c) (read f.2.asLists c)) (c : Cursor) :
    Agrees Value.asListsEntries (readFields fields c) (readFields (asListsEach fields) c) := by
  induction fields generalizing c with
  | nil => exact .ok Value.asListsEntries [] c
  | cons f fields ih =>
    obtain ⟨hhead, htail⟩ := List.forall_mem_cons.mp hf
    exact (hhead c).bind fun v c₁ => (ih htail c₁).bind fun entries c₂ =>
      .ok Value.asListsEntries ((.text f.1, v) :: entries) c₂

/-- The same bytes are read, as the value with byte strings spelled out, or refused alike. -/
theorem agrees_read (s : Schema) (c : Cursor) :
    Agrees Value.asLists (read s c) (read s.asLists c) := by
  induction s generalizing c with
  | integer w signed =>
    refine agrees_self fun v c' h => ?_
    obtain ⟨raw, -, rfl⟩ := read_integer.mp h
    rfl
  | floatInteger w signed => exact agrees_self fun v c' h => absurd h read_floatInteger
  | bool =>
    refine agrees_self fun v c' h => ?_
    obtain ⟨b, -, -, rfl⟩ := read_bool.mp h
    rfl
  | text =>
    refine agrees_self fun v c' h => ?_
    obtain ⟨n, c₁, raw, t, -, -, -, rfl⟩ := read_text.mp h
    rfl
  | bytes => exact agrees_bytes c
  | fixedBytes length => exact agrees_fixedBytes length c
  | option inner ih => exact agrees_option rfl ih c
  | vec inner ih => exact agrees_vec Value.asLists_list (minSize_asLists inner) ih c
  | array inner length ih => exact agrees_array Value.asLists_list ih length c
  | record fields ih =>
    exact (agrees_fields ih c).bind fun entries c₁ => .ok Value.asLists (.map entries) c₁
  | union variants ih =>
    refine (Agrees.refl c.next).bind fun tag c₁ => ?_
    dsimp only [id]
    rw [readVariant_eq, readVariant_eq, asListsEach_eq, List.getElem?_map]
    cases hv : variants[tag.toNat]? with
    | none => exact .error _ rfl
    | some variant =>
      let named (payload : Value) : Value := .map [(.text variant.1, payload)]
      exact (ih variant (List.mem_of_getElem? hv) c₁).map named named fun _ => rfl

theorem decode_of_agrees {s s' : Schema} {g : Value → Value}
    (h : ∀ c, Agrees g (read s c) (read s' c)) (data : Bytes) :
    (∃ v n, s.decode data = .ok (v, n) ∧ s'.decode data = .ok (g v, n)) ∨
      ∃ x x', s.decode data = .error x ∧ s'.decode data = .error x' ∧ x.category = x'.category := by
  unfold decode decodeAt
  obtain ⟨v, c, hv, hv'⟩ | ⟨x, x', hx, hx', hcategory⟩ := h ⟨0, data.drop 0⟩
  · rw [hv, hv']
    exact .inl ⟨v, c.offset, rfl, rfl⟩
  · rw [hx, hx']
    exact .inr ⟨x, x', rfl, rfl, hcategory⟩

/-! ### What is written -/

theorem toByte_of_encode {item : Value} {part : Bytes} (h : encode u8 item = .ok part) :
    ∃ b, part = [b] ∧ Value.toByte item = .ok b := by
  obtain ⟨n, rfl, hlt, rfl⟩ := encode_unsigned.mp h
  have hlt : n < 256 := hlt
  have hbyte : 0 ≤ (n : Int) ∧ (n : Int) < 256 := by omega
  refine ⟨UInt8.ofNat n, rfl, ?_⟩
  unfold Value.toByte
  simp only [Value.toInt?]
  rw [if_pos hbyte, Int.toNat_natCast]

/-- A list of bytes that is written is the byte string that it spells. -/
theorem toByteItems_of_encode {items : List Value} {parts : List Bytes}
    (h : List.Forall₂ (fun item part => encode u8 item = .ok part) items parts) :
    Value.toByteItems items = .ok parts.flatten ∧ parts.flatten.length = items.length := by
  induction h with
  | nil => exact ⟨rfl, rfl⟩
  | @cons item part items parts head tail ih =>
    obtain ⟨b, rfl, hb⟩ := toByte_of_encode head
    obtain ⟨hitems, hlen⟩ := ih
    refine ⟨?_, congrArg Nat.succ hlen⟩
    show (Value.toByte item >>= fun b => Value.toByteItems items >>= fun bs => pure (b :: bs)) = _
    rw [hb, hitems]
    rfl

/-- The rows of a record, each with a schema that writes its value in the same bytes. -/
theorem rows_of_asLists {fields : List (Text × Schema)} {rows' : List Row}
    (h : asListsEach fields = rows'.map Row.field) (hrows' : ∀ row ∈ rows', row.Encodes)
    (ih : ∀ f ∈ fields, ∀ v bs, f.2.asLists.encode v = .ok bs → f.2.encode v = .ok bs) :
    ∃ rows : List Row, rows.map Row.field = fields ∧ rows.map Row.entry = rows'.map Row.entry ∧
      rows.map (·.bytes) = rows'.map (·.bytes) ∧ ∀ row ∈ rows, row.Encodes := by
  induction fields generalizing rows' with
  | nil =>
    obtain rfl := List.map_eq_nil_iff.mp h.symm
    exact ⟨[], rfl, rfl, rfl, hrows'⟩
  | cons f fields ihf =>
    obtain ⟨row', rows', rfl, hrow', htail⟩ := List.map_eq_cons_iff.mp h.symm
    obtain ⟨hhead, hfields⟩ := List.forall_mem_cons.mp ih
    obtain ⟨hencodes, hrest⟩ := List.forall_mem_cons.mp hrows'
    obtain ⟨rows, rfl, hentries, hbytes, hrows⟩ := ihf htail.symm hrest hfields
    obtain ⟨name, schema, value, bytes⟩ := row'
    cases hrow'
    refine ⟨⟨f.1, f.2, value, bytes⟩ :: rows, rfl, ?_, ?_, List.forall_mem_cons.mpr ⟨?_, hrows⟩⟩
    · rw [List.map_cons, List.map_cons, hentries]
      rfl
    · rw [List.map_cons, List.map_cons, hbytes]
    · exact hhead value bytes hencodes

/-- What is written with byte strings as lists is written in the same bytes with byte strings. -/
theorem encode_of_asLists {s : Schema} (hs : s.all isSound) {v : Value} {bs : Bytes}
    (h : s.asLists.encode v = .ok bs) : s.encode v = .ok bs := by
  induction s generalizing v bs with
  | bytes =>
    obtain ⟨items, parts, rfl, hfits, hparts, rfl⟩ := encode_vec.mp h
    obtain ⟨hitems, hlen⟩ := toByteItems_of_encode hparts
    rw [← hlen] at hfits ⊢
    exact encode_bytes.mpr ⟨_, .inr ⟨items, rfl, hitems⟩, hfits, rfl⟩
  | fixedBytes length =>
    obtain ⟨items, parts, rfl, hcount, hparts, rfl⟩ := encode_array.mp h
    obtain ⟨hitems, hlen⟩ := toByteItems_of_encode hparts
    exact encode_fixedBytes.mpr ⟨.inr ⟨items, rfl, hitems⟩, hlen.trans hcount⟩
  | option inner ih =>
    rcases encode_option.mp h with hnone | ⟨hv, body, hbody, rfl⟩
    · exact encode_option.mpr (.inl hnone)
    · exact encode_option.mpr (.inr ⟨hv, body, ih (all_option hs) hbody, rfl⟩)
  | vec inner ih =>
    obtain ⟨items, parts, rfl, hfits, hparts, rfl⟩ := encode_vec.mp h
    exact encode_vec.mpr
      ⟨items, parts, rfl, hfits, hparts.imp fun _ _ => ih (all_vec hs), rfl⟩
  | array inner length ih =>
    obtain ⟨items, parts, rfl, hcount, hparts, rfl⟩ := encode_array.mp h
    exact encode_array.mpr
      ⟨items, parts, rfl, hcount, hparts.imp fun _ _ => ih (all_array hs), rfl⟩
  | record fields ih =>
    have hn := nodup_of_record hs
    have hn' : ((asListsEach fields).map (·.1)).Nodup := by rwa [map_fst_asListsEach]
    obtain ⟨entries, rows', rfl, hrows', hencodes, hperm, rfl⟩ := (encode_record hn').mp h
    obtain ⟨rows, hfields, hentries, hbytes, hrows⟩ := rows_of_asLists hrows'.symm hencodes
      fun f hf v bs => ih f hf (all_record hs f hf)
    rw [← hentries] at hperm
    rw [← hbytes]
    exact (encode_record hn).mpr ⟨entries, rows, rfl, hfields, hrows, hperm, rfl⟩
  | union variants ih =>
    have hn := nodup_of_union hs
    have hn' : ((asListsEach variants).map (·.1)).Nodup := by rwa [map_fst_asListsEach]
    obtain ⟨index, name, t', payload, body, hv', rfl, hbody, rfl⟩ := (encode_union hn').mp h
    rw [asListsEach_eq, List.getElem?_map, Option.map_eq_some_iff] at hv'
    obtain ⟨⟨name, t⟩, hv, ⟨⟩⟩ := hv'
    have hmem := List.mem_of_getElem? hv
    exact (encode_union hn).mpr
      ⟨index, name, t, payload, body, hv, rfl, ih _ hmem (all_union hs _ hmem) hbody, rfl⟩
  | _ => exact h

/-- Byte strings and lists of bytes stand for each other on the wire. With byte strings described as
lists, a schema is built just if it was; the same bytes are read as the same value, spelled out, or
refused with an error of the same category; and what is written is what was written. -/
theorem asLists_same_wire (b : Blueprint) :
    ((∃ s', b.asLists.build = .ok s') ↔ ∃ s, b.build = .ok s) ∧
      ∀ s, b.build = .ok s → b.asLists.build = .ok s.asLists ∧
        (∀ data, (∃ v n, s.decode data = .ok (v, n) ∧
            s.asLists.decode data = .ok (v.asLists, n)) ∨
          ∃ x x', s.decode data = .error x ∧ s.asLists.decode data = .error x' ∧
            x.category = x'.category) ∧
        ∀ v bs, s.asLists.encode v = .ok bs → s.encode v = .ok bs := by
  refine ⟨⟨?_, ?_⟩, fun s hs => ⟨?_, decode_of_agrees (agrees_read s), fun v bs => ?_⟩⟩
  · rintro ⟨s', h⟩
    obtain ⟨s, hs, -⟩ := Blueprint.build_asLists.mp h
    exact ⟨s, hs⟩
  · rintro ⟨s, hs⟩
    exact ⟨s.asLists, Blueprint.build_asLists.mpr ⟨s, hs, rfl⟩⟩
  · exact Blueprint.build_asLists.mpr ⟨s, hs, rfl⟩
  · exact encode_of_asLists (Blueprint.sound_of_build hs)

/-- A list of byte strings of two bytes, one of which is missing a byte in the second input. -/
theorem asLists_same_wire_pairs :
    Blueprint.build (.vec (.array (.integer (.int 8) (.bool false)) (.int 2))) =
        .ok (.vec (.array u8 2)) ∧
      (vec (.array u8 2)).decode [2, 0, 0, 0, 1, 2, 3, 4] =
        .ok (.list [.list [.int 1, .int 2], .list [.int 3, .int 4]], 8) ∧
      (∃ x, (vec (.array u8 2)).decode [2, 0, 0, 0, 1, 2, 3] = .error x ∧
        x.category = .truncated) ∧
      (vec (.fixedBytes 2)).encode (.list [.list [.int 1, .int 2]]) = .ok [1, 0, 0, 0, 1, 2] := by
  have hbuild : (Blueprint.vec (.fixedBytes (.int 2))).build = .ok (.vec (.fixedBytes 2)) := rfl
  obtain ⟨hlists, hread, hwritten⟩ := (asLists_same_wire _).2 _ hbuild
  refine ⟨hlists, ?_, ?_, hwritten _ _ rfl⟩
  · obtain ⟨v, n, h, h'⟩ | ⟨x, x', h, -⟩ := hread [2, 0, 0, 0, 1, 2, 3, 4]
    · cases h
      exact h'
    · cases h
  · obtain ⟨v, n, h, -⟩ | ⟨x, x', h, h', hx⟩ := hread [2, 0, 0, 0, 1, 2, 3]
    · cases h
    · cases h
      exact ⟨x', h', hx.symm⟩

end Schema

end LedgerWire
