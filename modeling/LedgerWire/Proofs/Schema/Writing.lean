import LedgerWire.Proofs.Result
import LedgerWire.Proofs.Schema.Structure
import LedgerWire.Schema.Encode
import Mathlib.Data.List.Nodup
import Mathlib.Data.List.Perm.Subperm
import Mathlib.Tactic.Ring

/-!
# What is written

For each node of a schema, the values that it takes and the bytes that they become. A list is the
encodings of its items, one after the other; a record is a list of `Row`s, one for each field, and
its entries are those of the rows in any order.
-/

namespace LedgerWire

/-! ### Integers -/

namespace Bytes

theorem ofIntLE_ofNat (size n : Nat) (h : n < 256 ^ size) : ofIntLE size n = ofNatLE size n := by
  have : ((n : Int) % (256 ^ size : Nat)).toNat = n := by
    rw [← Int.natCast_emod, Int.toNat_natCast, Nat.mod_eq_of_lt h]
  rw [ofIntLE, this]

@[simp] theorem length_ofIntLE (size : Nat) (n : Int) : (ofIntLE size n).length = size :=
  length_ofNatLE _ _

theorem toNatLE_ofIntLE {size : Nat} {n : Int} (hl : 0 ≤ n) (hh : n < (256 ^ size : Nat)) :
    ((ofIntLE size n).toNatLE : Int) = n := by
  obtain ⟨m, rfl⟩ := Int.eq_ofNat_of_zero_le hl
  have hm : m < 256 ^ size := by exact_mod_cast hh
  rw [ofIntLE_ofNat size m hm, toNatLE_ofNatLE, Nat.mod_eq_of_lt hm]

theorem toIntLE_ofIntLE {size : Nat} {n : Int} (hl : -(256 ^ size : Nat) ≤ 2 * n)
    (hh : 2 * n < (256 ^ size : Nat)) : (ofIntLE size n).toIntLE = n := by
  have hpos : (0 : Int) < (256 ^ size : Nat) := by exact_mod_cast Nat.pow_pos (by decide)
  have hmod : ((ofIntLE size n).toNatLE : Int) = n % (256 ^ size : Nat) := by
    have hlt := Int.emod_lt_of_pos n hpos
    have hnn := Int.emod_nonneg n (ne_of_gt hpos)
    rw [ofIntLE, toNatLE_ofNatLE, Nat.mod_eq_of_lt (by omega)]
    omega
  unfold toIntLE
  simp only [length_ofIntLE]
  generalize 256 ^ size = p at *
  by_cases hn : 0 ≤ n
  · rw [Int.emod_eq_of_lt hn (by omega)] at hmod
    rw [if_pos (by omega), hmod]
  · have : n % (p : Int) = n + p := by
      rw [← Int.add_emod_right, Int.emod_eq_of_lt (by omega) (by omega)]
    rw [if_neg (by omega)]
    omega

@[simp] theorem ofIntLE_toNatLE (bs : Bytes) : ofIntLE bs.length bs.toNatLE = bs := by
  rw [ofIntLE_ofNat _ _ (toNatLE_lt bs), ofNatLE_toNatLE]

@[simp] theorem ofIntLE_toIntLE (bs : Bytes) : ofIntLE bs.length bs.toIntLE = bs := by
  have hlt := toNatLE_lt bs
  have hmod : bs.toIntLE % (256 ^ bs.length : Nat) = bs.toNatLE := by
    unfold toIntLE
    generalize 256 ^ bs.length = p at *
    by_cases h : 2 * bs.toNatLE < p
    · simp only [if_pos h]
      exact Int.emod_eq_of_lt (by omega) (by omega)
    · simp only [if_neg h]
      rw [Int.sub_emod_right, Int.emod_eq_of_lt (by omega) (by omega)]
  rw [ofIntLE, hmod, Int.toNat_natCast, ofNatLE_toNatLE]

theorem toIntLE_bounds (bs : Bytes) :
    -(256 ^ bs.length : Nat) ≤ 2 * bs.toIntLE ∧ 2 * bs.toIntLE < (256 ^ bs.length : Nat) := by
  have hlt := toNatLE_lt bs
  unfold toIntLE
  generalize 256 ^ bs.length = p at *
  by_cases h : 2 * bs.toNatLE < p
  · simp only [if_pos h]
    omega
  · simp only [if_neg h]
    omega

end Bytes

namespace Width

theorem unsigned_range (w : Width) (n : Int) :
    w.minInt false ≤ n ∧ n ≤ w.maxInt false ↔ 0 ≤ n ∧ n < (256 ^ w.bytes : Nat) := by
  cases w <;> simp [minInt, maxInt, bits, bytes] <;> omega

/-- What is in the range of an unsigned integer is a natural number. -/
theorem natural_range (w : Width) (n : Int) :
    w.minInt false ≤ n ∧ n ≤ w.maxInt false ↔ ∃ m : Nat, n = m ∧ m < 256 ^ w.bytes := by
  rw [unsigned_range]
  constructor
  · rintro ⟨hn, hlt⟩
    obtain ⟨m, rfl⟩ := Int.eq_ofNat_of_zero_le hn
    exact ⟨m, rfl, by exact_mod_cast hlt⟩
  · rintro ⟨m, rfl, hlt⟩
    exact ⟨Int.natCast_nonneg m, by exact_mod_cast hlt⟩

theorem signed_range (w : Width) (n : Int) :
    w.minInt true ≤ n ∧ n ≤ w.maxInt true ↔
      -(256 ^ w.bytes : Nat) ≤ 2 * n ∧ 2 * n < (256 ^ w.bytes : Nat) := by
  cases w <;> simp [minInt, maxInt, bits, bytes] <;> omega

end Width

namespace Schema

/-! ### Single values -/

@[simp] theorem misfit_ne_ok {α : Type} {reason : Misfit} {a : α} : misfit reason ≠ .ok a := nofun

@[simp] theorem encodeLength_eq_ok {length : Nat} {bs : Bytes} :
    encodeLength length = .ok bs ↔ length ≤ maxLength ∧ Bytes.ofNatLE lengthSize length = bs := by
  unfold encodeLength
  by_cases h : length ≤ maxLength
  · simp [h]
  · simp [h]

theorem encode_integer {w : Width} {signed : Bool} {v : Value} {bs : Bytes} :
    encode (.integer w signed) v = .ok bs ↔
      ∃ n, v = .int n ∧ (w.minInt signed ≤ n ∧ n ≤ w.maxInt signed) ∧ Bytes.ofIntLE w.bytes n = bs := by
  show encodeInteger w signed v = .ok bs ↔ _
  cases v with
  | int n =>
    by_cases h : w.minInt signed ≤ n ∧ n ≤ w.maxInt signed
    · simp [encodeInteger, h]
    · simp [encodeInteger, h]
  | _ => simp [encodeInteger]

theorem encode_unsigned {w : Width} {v : Value} {bs : Bytes} :
    encode (.integer w false) v = .ok bs ↔
      ∃ n : Nat, v = .int n ∧ n < 256 ^ w.bytes ∧ Bytes.ofNatLE w.bytes n = bs := by
  simp only [encode_integer, Width.natural_range]
  constructor
  · rintro ⟨_, rfl, ⟨n, rfl, hlt⟩, rfl⟩
    exact ⟨n, rfl, hlt, (Bytes.ofIntLE_ofNat _ n hlt).symm⟩
  · rintro ⟨n, rfl, hlt, rfl⟩
    exact ⟨n, rfl, ⟨n, rfl, hlt⟩, Bytes.ofIntLE_ofNat _ n hlt⟩

theorem encode_floatInteger {w : Width} {signed : Bool} {v : Value} {bs : Bytes} :
    encode (.floatInteger w signed) v ≠ .ok bs := by
  show encodeFloatInteger w signed v ≠ .ok bs
  cases v with
  | int n =>
    by_cases h : (!signed && decide (n < 0)) = true
    · simp [encodeFloatInteger, h]
    · simp [encodeFloatInteger, h]
  | _ => simp [encodeFloatInteger]

theorem encode_bool {v : Value} {bs : Bytes} :
    encode .bool v = .ok bs ↔ ∃ b, v = .bool b ∧ [if b then 1 else 0] = bs := by
  cases v with
  | bool b =>
    show (.ok [if b then 1 else 0] : Except EncodeError Bytes) = .ok bs ↔ _
    simp
  | _ => exact iff_of_false misfit_ne_ok (by simp)

theorem encode_text {v : Value} {bs : Bytes} :
    encode .text v = .ok bs ↔ ∃ t body, v = .text t ∧ Utf8.encode t = .ok body ∧
      body.length ≤ maxLength ∧ Bytes.ofNatLE lengthSize body.length ++ body = bs := by
  show encodeText v = .ok bs ↔ _
  cases v with
  | text t =>
    cases ht : Utf8.encode t with
    | error fault => simp [encodeText, ht]
    | ok body =>
      simp only [encodeText, ht, bind_eq_ok, encodeLength_eq_ok, pure_def, Except.ok.injEq]
      constructor
      · rintro ⟨_, ⟨h, rfl⟩, rfl⟩
        exact ⟨t, body, rfl, ht, h, rfl⟩
      · rintro ⟨_, _, h1, h2, h3, rfl⟩
        cases h1
        rw [ht] at h2
        cases h2
        exact ⟨_, ⟨h3, rfl⟩, rfl⟩
  | _ => simp [encodeText]

/-- The value is this byte string, or a list of its bytes. -/
def Spells (v : Value) (body : Bytes) : Prop :=
  v = .bytes body ∨ ∃ items, v = .list items ∧ Value.toByteItems items = .ok body

@[simp] theorem bytesFor_eq_ok {s : Schema} {v : Value} {body : Bytes} :
    bytesFor s v = .ok body ↔ Spells v body := by
  unfold Spells
  cases v with
  | list items =>
    cases h : Value.toByteItems items <;> simp [bytesFor, h]
  | _ => simp [bytesFor]

theorem encode_bytes {v : Value} {bs : Bytes} :
    encode .bytes v = .ok bs ↔ ∃ body, Spells v body ∧ body.length ≤ maxLength ∧
      Bytes.ofNatLE lengthSize body.length ++ body = bs := by
  show encodeBytes v = .ok bs ↔ _
  simp only [encodeBytes, bind_eq_ok, bytesFor_eq_ok, encodeLength_eq_ok, pure_def, Except.ok.injEq]
  constructor
  · rintro ⟨body, h, _, ⟨hle, rfl⟩, rfl⟩
    exact ⟨body, h, hle, rfl⟩
  · rintro ⟨body, h, hle, rfl⟩
    exact ⟨body, h, _, ⟨hle, rfl⟩, rfl⟩

theorem encode_fixedBytes {length : Nat} {v : Value} {bs : Bytes} :
    encode (.fixedBytes length) v = .ok bs ↔ Spells v bs ∧ bs.length = length := by
  show encodeFixedBytes length v = .ok bs ↔ _
  simp only [encodeFixedBytes, bind_eq_ok, bytesFor_eq_ok]
  constructor
  · rintro ⟨body, h, hbs⟩
    obtain ⟨hl, rfl⟩ := ite_eq_ok.mp hbs
    exact ⟨h, hl⟩
  · rintro ⟨h, hl⟩
    exact ⟨bs, h, by rw [if_pos hl]; rfl⟩

@[simp] theorem encode_option_none {inner : Schema} : encode (.option inner) .none = .ok [0] := rfl

theorem encode_option_some {inner : Schema} {v : Value} (hv : v ≠ .none) :
    encode (.option inner) v = (encode inner v).map (1 :: ·) := by
  cases v with
  | none => exact absurd rfl hv
  | _ => rfl

theorem encode_option {inner : Schema} {v : Value} {bs : Bytes} :
    encode (.option inner) v = .ok bs ↔
      (v = .none ∧ [0] = bs) ∨ (v ≠ .none ∧ ∃ body, encode inner v = .ok body ∧ 1 :: body = bs) := by
  by_cases hv : v = .none
  · subst hv
    simp
  · simp [encode_option_some hv, hv]

/-- Nothing is written for optional values only. -/
theorem option_of_encode_none {s : Schema} {bs : Bytes} (h : encode s .none = .ok bs) :
    ∃ inner, s = .option inner := by
  cases s with
  | option inner => exact ⟨inner, rfl⟩
  | _ => cases h

/-! ### Lists -/

theorem encodeItems_eq_ok {enc : Value → Except EncodeError Bytes} {index : Nat}
    {items : List Value} {bs : Bytes} :
    encodeItems enc index items = .ok bs ↔
      ∃ parts, List.Forall₂ (fun item part => enc item = .ok part) items parts ∧
        parts.flatten = bs := by
  induction items generalizing index bs with
  | nil => simp [encodeItems]
  | cons item items ih =>
    simp only [encodeItems, bind_eq_ok, mapError_eq_ok, ih, pure_def, Except.ok.injEq]
    constructor
    · rintro ⟨part, h, _, ⟨parts, hs, rfl⟩, rfl⟩
      exact ⟨part :: parts, .cons h hs, rfl⟩
    · rintro ⟨_, _ | ⟨h, hs⟩, rfl⟩
      exact ⟨_, h, _, ⟨_, hs, rfl⟩, rfl⟩

theorem encode_vec {inner : Schema} {v : Value} {bs : Bytes} :
    encode (.vec inner) v = .ok bs ↔ ∃ items parts, v = .list items ∧ items.length ≤ maxLength ∧
      List.Forall₂ (fun item part => encode inner item = .ok part) items parts ∧
      Bytes.ofNatLE lengthSize items.length ++ parts.flatten = bs := by
  cases v with
  | list items =>
    show (encodeLength items.length >>= fun length =>
      encodeItems (encode inner) 0 items >>= fun body => pure (length ++ body)) = .ok bs ↔ _
    simp only [bind_eq_ok, encodeLength_eq_ok, encodeItems_eq_ok, pure_def, Except.ok.injEq]
    constructor
    · rintro ⟨_, ⟨h, rfl⟩, _, ⟨parts, hs, rfl⟩, rfl⟩
      exact ⟨items, parts, rfl, h, hs, rfl⟩
    · rintro ⟨_, parts, heq, h, hs, rfl⟩
      cases heq
      exact ⟨_, ⟨h, rfl⟩, _, ⟨parts, hs, rfl⟩, rfl⟩
  | _ => exact iff_of_false misfit_ne_ok (by simp)

theorem encode_array {inner : Schema} {length : Nat} {v : Value} {bs : Bytes} :
    encode (.array inner length) v = .ok bs ↔
      ∃ items parts, v = .list items ∧ items.length = length ∧
        List.Forall₂ (fun item part => encode inner item = .ok part) items parts ∧
        parts.flatten = bs := by
  cases v with
  | list items =>
    show (if items.length = length then encodeItems (encode inner) 0 items else misfit _) = .ok bs ↔ _
    by_cases hl : items.length = length
    · simp only [if_pos hl, encodeItems_eq_ok]
      constructor
      · rintro ⟨parts, hs, rfl⟩
        exact ⟨items, parts, rfl, hl, hs, rfl⟩
      · rintro ⟨_, parts, heq, -, hs, rfl⟩
        cases heq
        exact ⟨parts, hs, rfl⟩
    · simp only [if_neg hl]
      refine ⟨fun h => absurd h misfit_ne_ok, ?_⟩
      rintro ⟨_, _, heq, h, -⟩
      cases heq
      exact absurd h hl
  | _ => exact iff_of_false misfit_ne_ok (by simp)

end Schema

/-! ### Entries of mappings -/

namespace Entries

@[simp] theorem field?_cons_self (name : Text) (v : Value) (entries : Entries) :
    field? name ((.text name, v) :: entries) = some v := if_pos rfl

theorem field?_cons_of_ne {name : Text} {key : Value} (h : key ≠ .text name) (v : Value)
    (entries : Entries) : field? name ((key, v) :: entries) = field? name entries := by
  cases key with
  | text t => exact if_neg fun heq => h (congrArg Value.text heq)
  | _ => rfl

theorem mem_of_field? {name : Text} {v : Value} {entries : Entries}
    (h : entries.field? name = some v) : (.text name, v) ∈ entries := by
  fun_induction field? name entries with
  | case1 => cases h
  | case2 => cases h; exact List.mem_cons_self
  | case3 _ _ _ _ ih => exact List.mem_cons_of_mem _ (ih h)
  | case4 _ _ _ ih => exact List.mem_cons_of_mem _ (ih h)

theorem field?_of_mem {name : Text} {v : Value} {entries : Entries}
    (hn : (entries.map (·.1)).Nodup) (h : (.text name, v) ∈ entries) :
    entries.field? name = some v := by
  fun_induction field? name entries with
  | case1 => cases h
  | case2 w entries =>
    rcases List.mem_cons.mp h with h | h
    · cases h; rfl
    · exact absurd (List.mem_map_of_mem (f := (·.1)) h) (List.nodup_cons.mp hn).1
  | case3 t w entries ht ih =>
    rcases List.mem_cons.mp h with h | h
    · cases h; exact absurd rfl ht
    · exact ih (List.nodup_cons.mp hn).2 h
  | case4 e entries he ih =>
    rcases List.mem_cons.mp h with h | h
    · exact absurd h.symm (he name v)
    · exact ih (List.nodup_cons.mp hn).2 h

theorem field?_isSome {name : Text} {entries : Entries} :
    (entries.field? name).isSome ↔ .text name ∈ entries.map (·.1) := by
  fun_induction field? name entries with
  | case1 => simp
  | case2 => simp
  | case3 t w entries ht ih =>
    have : ¬ Value.text name = .text t := fun h => ht (by cases h; rfl)
    simp [ih, this]
  | case4 e entries he ih =>
    have : ¬ Value.text name = e.1 := fun h => he name e.2 (by rw [h])
    simp [ih, this]

end Entries

namespace Schema

/-! ### Records -/

/-- A field of a record, with a value for it and the encoding of that. -/
structure Row where
  name : Text
  schema : Schema
  value : Value
  bytes : Bytes

namespace Row

def field (r : Row) : Text × Schema := (r.name, r.schema)

def entry (r : Row) : Value × Value := (.text r.name, r.value)

def Encodes (r : Row) : Prop := encode r.schema r.value = .ok r.bytes

end Row

theorem keys_nodup {fields : List (Text × Schema)} (hn : (fields.map (·.1)).Nodup) :
    (fields.map fun f => Value.text f.1).Nodup := by
  have h : (fields.map fun f => Value.text f.1) = (fields.map (·.1)).map .text := by simp
  rw [h]
  exact List.Nodup.map (fun _ _ h => Value.text.inj h) hn

@[simp] theorem map_fst_entry (rows : List Row) :
    (rows.map Row.entry).map (·.1) = (rows.map Row.field).map fun f => .text f.1 := by
  simp [Row.entry, Row.field]

/-- The keys are the names of the fields, each once. -/
theorem checkFields_eq_ok {fields : List (Text × Schema)} {entries : Entries}
    (hn : (fields.map (·.1)).Nodup) :
    checkFields fields entries = .ok () ↔
      (entries.map (·.1)).Perm (fields.map fun f => .text f.1) := by
  have hkeys : (fields.map fun f => Value.text f.1) = (fields.map (·.1)).map .text := by simp
  unfold checkFields
  dsimp only
  constructor
  · intro h
    split at h
    · next hc =>
      simp only [Bool.and_eq_true, List.isEmpty_iff, List.filter_eq_nil_iff, beq_iff_eq,
        Option.isNone_iff_eq_none] at hc
      obtain ⟨⟨hm, -⟩, hl⟩ := hc
      have hsub : (fields.map fun f => Value.text f.1) ⊆ entries.map (·.1) := by
        intro key hkey
        rw [hkeys] at hkey
        obtain ⟨name, hname, rfl⟩ := List.mem_map.mp hkey
        exact Entries.field?_isSome.mp (Option.isSome_iff_ne_none.mpr (hm name hname))
      exact ((List.subperm_of_subset (keys_nodup hn) hsub).perm_of_length_le (by simp [hl])).symm
    · exact absurd h misfit_ne_ok
  · intro hp
    rw [if_pos]
    simp only [Bool.and_eq_true, List.isEmpty_iff, List.filter_eq_nil_iff, beq_iff_eq,
      Option.isNone_iff_eq_none]
    refine ⟨⟨fun name hname => ?_, fun key hkey => ?_⟩, by simpa using hp.length_eq⟩
    · refine Option.isSome_iff_ne_none.mp (Entries.field?_isSome.mpr (hp.mem_iff.mpr ?_))
      rw [hkeys]
      exact List.mem_map_of_mem hname
    · obtain ⟨f, hf, rfl⟩ := List.mem_map.mp (hp.mem_iff.mp hkey)
      simpa using ⟨f.2, hf⟩

theorem encodeFields_eq_ok {fields : List (Text × Schema)} {entries : Entries} {bs : Bytes} :
    encodeFields fields entries = .ok bs ↔
      ∃ rows : List Row, rows.map Row.field = fields ∧ (∀ r ∈ rows, r.Encodes) ∧
        (∀ r ∈ rows, entries.field? r.name = some r.value) ∧ (rows.map (·.bytes)).flatten = bs := by
  induction fields generalizing bs with
  | nil =>
    simp only [encodeFields, Except.ok.injEq, List.map_eq_nil_iff]
    constructor
    · rintro rfl
      exact ⟨[], rfl, by simp, by simp, rfl⟩
    · rintro ⟨rows, rfl, -, -, rfl⟩
      rfl
  | cons f fields ih =>
    obtain ⟨name, s⟩ := f
    constructor
    · intro h
      unfold encodeFields at h
      cases hv : entries.field? name with
      | none => simp [hv] at h
      | some v =>
        simp only [hv, bind_eq_ok, mapError_eq_ok, pure_def, Except.ok.injEq] at h
        obtain ⟨front, hf, back, hb, rfl⟩ := h
        obtain ⟨rows, rfl, h1, h2, rfl⟩ := ih.mp hb
        exact ⟨⟨name, s, v, front⟩ :: rows, rfl, List.forall_mem_cons.mpr ⟨hf, h1⟩,
          List.forall_mem_cons.mpr ⟨hv, h2⟩, rfl⟩
    · rintro ⟨rows, hr, h1, h2, rfl⟩
      obtain ⟨r, rows, rfl, hr, rfl⟩ := List.map_eq_cons_iff.mp hr
      cases hr
      obtain ⟨he, h1⟩ := List.forall_mem_cons.mp h1
      obtain ⟨hv, h2⟩ := List.forall_mem_cons.mp h2
      unfold encodeFields
      simp only [hv, bind_eq_ok, mapError_eq_ok, pure_def, Except.ok.injEq]
      exact ⟨_, he, _, ih.mpr ⟨rows, rfl, h1, h2, rfl⟩, rfl⟩

theorem encodeFields_cons {field : Text} {s : Schema} {fields : List (Text × Schema)}
    {entries : Entries} {v : Value} {bs : Bytes} (hv : entries.field? field = some v) :
    encodeFields ((field, s) :: fields) entries = .ok bs ↔ ∃ front, s.encode v = .ok front ∧
      ∃ back, encodeFields fields entries = .ok back ∧ front ++ back = bs := by
  rw [encodeFields]
  simp only [hv, bind_eq_ok, mapError_eq_ok, pure_def, Except.ok.injEq]

theorem encode_record {fields : List (Text × Schema)} (hn : (fields.map (·.1)).Nodup) {v : Value}
    {bs : Bytes} :
    encode (.record fields) v = .ok bs ↔
      ∃ (entries : Entries) (rows : List Row), v = .map entries ∧ rows.map Row.field = fields ∧
        (∀ r ∈ rows, r.Encodes) ∧ entries.Perm (rows.map Row.entry) ∧
        (rows.map (·.bytes)).flatten = bs := by
  cases v with
  | map entries =>
    show (checkFields fields entries >>= fun _ => encodeFields fields entries) = .ok bs ↔ _
    simp only [bind_eq_ok, checkFields_eq_ok hn, encodeFields_eq_ok]
    constructor
    · rintro ⟨-, hp, rows, rfl, h1, h2, rfl⟩
      have hnr : (rows.map Row.entry).Nodup := by
        refine List.Nodup.of_map (·.1) ?_
        rw [map_fst_entry]
        exact keys_nodup hn
      have hsub : rows.map Row.entry ⊆ entries := by
        intro e he
        obtain ⟨r, hr, rfl⟩ := List.mem_map.mp he
        exact Entries.mem_of_field? (h2 r hr)
      have hlen : entries.length = rows.length := by simpa using hp.length_eq
      exact ⟨entries, rows, rfl, rfl, h1,
        ((List.subperm_of_subset hnr hsub).perm_of_length_le (by simp [hlen])).symm, rfl⟩
    · rintro ⟨_, rows, heq, rfl, h1, hp, rfl⟩
      cases heq
      have hk := hp.map (·.1)
      rw [map_fst_entry] at hk
      refine ⟨(), hk, rows, rfl, h1, fun r hr => ?_, rfl⟩
      exact Entries.field?_of_mem (hk.nodup_iff.mpr (keys_nodup hn))
        (hp.mem_iff.mpr (List.mem_map_of_mem hr))
  | _ => exact iff_of_false misfit_ne_ok (by simp)

/-! ### Unions -/

theorem encodeVariant_eq_some {variants : List (Text × Schema)}
    (hn : (variants.map (·.1)).Nodup) {name : Text} {payload : Value} {start : Nat}
    {r : Except EncodeError Bytes} :
    encodeVariant variants name payload start = some r ↔
      ∃ index s, variants[index]? = some (name, s) ∧
        ((encode s payload).mapError (·.within (.name name))).map
          (UInt8.ofNat (start + index) :: ·) = r := by
  induction variants generalizing start with
  | nil => simp [encodeVariant]
  | cons f variants ih =>
    obtain ⟨n, s⟩ := f
    obtain ⟨hnot, hn⟩ := List.nodup_cons.mp hn
    unfold encodeVariant
    by_cases h : n = name
    · subst h
      simp only [if_true, Option.some.injEq]
      constructor
      · rintro rfl
        exact ⟨0, s, rfl, rfl⟩
      · rintro ⟨_ | index, t, ht, rfl⟩
        · cases ht
          rfl
        · have ht : variants[index]? = some (n, t) := ht
          exact absurd (List.mem_map_of_mem (f := (·.1)) (List.mem_of_getElem? ht)) hnot
    · simp only [if_neg h, ih hn]
      constructor
      · rintro ⟨index, t, ht, rfl⟩
        exact ⟨index + 1, t, ht, by rw [Nat.add_right_comm, Nat.add_assoc]⟩
      · rintro ⟨_ | index, t, ht, rfl⟩
        · cases ht
          exact absurd rfl h
        · exact ⟨index, t, ht, by rw [Nat.add_right_comm, Nat.add_assoc]⟩

theorem encode_union {variants : List (Text × Schema)} (hn : (variants.map (·.1)).Nodup)
    {v : Value} {bs : Bytes} :
    encode (.union variants) v = .ok bs ↔
      ∃ index name s payload body, variants[index]? = some (name, s) ∧
        v = .map [(.text name, payload)] ∧ encode s payload = .ok body ∧
        UInt8.ofNat index :: body = bs := by
  constructor
  · intro h
    cases v with
    | map entries =>
      rcases entries with _ | ⟨⟨name, payload⟩, _ | ⟨_, _⟩⟩
      · exact absurd h misfit_ne_ok
      · cases name with
        | text t =>
          have h : (encodeVariant variants t payload 0).getD (misfit _) = .ok bs := h
          cases hr : encodeVariant variants t payload 0 with
          | none => simp [hr] at h
          | some r =>
            obtain ⟨index, s, hi, rfl⟩ := (encodeVariant_eq_some hn).mp hr
            simp only [hr, Option.getD_some, map_eq_ok, mapError_eq_ok] at h
            obtain ⟨body, hb, rfl⟩ := h
            exact ⟨index, t, s, payload, body, hi, rfl, hb, by rw [Nat.zero_add]⟩
        | _ => exact absurd h misfit_ne_ok
      · exact absurd h misfit_ne_ok
    | _ => exact absurd h misfit_ne_ok
  · rintro ⟨index, name, s, payload, body, hi, rfl, hb, rfl⟩
    show (encodeVariant variants name payload 0).getD (misfit _) = _
    rw [(encodeVariant_eq_some hn).mpr ⟨index, s, hi, rfl⟩, hb, Nat.zero_add]
    rfl

end Schema

end LedgerWire
