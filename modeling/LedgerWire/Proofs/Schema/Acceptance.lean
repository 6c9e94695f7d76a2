import LedgerWire.Proofs.Schema.Writing
import LedgerWire.Proofs.Text.Utf8

/-!
# What is accepted

A value is accepted if it is written, in whichever bytes. For each node of a schema, the parts that have
to be accepted and what else the node asks for: the keys of a mapping, the number of items, the bytes
that a value stands for.
-/

namespace LedgerWire

/-! ### Byte strings and lists of bytes -/

namespace Value

/-- The value stands for a byte where it is the item of a list. -/
inductive IsByte : Value → Prop
  | bool (b : Bool) : IsByte (.bool b)
  | int {n : Int} (range : 0 ≤ n ∧ n ≤ 255) : IsByte (.int n)

/-- The value is a byte string of a length, or a list of so many bytes. -/
inductive HasBytes : Value → Nat → Prop
  | bytes (body : Bytes) : HasBytes (.bytes body) body.length
  | list {items : List Value} (each : ∀ item ∈ items, IsByte item) :
    HasBytes (.list items) items.length

theorem isByte_iff {v : Value} : IsByte v ↔ ∃ b, v.toByte = .ok b := by
  unfold toByte
  cases v with
  | bool b =>
    refine iff_of_true (.bool b) ?_
    cases b <;> exact ⟨_, rfl⟩
  | int n =>
    simp only [toInt?, ite_eq_ok, exists_and_left, exists_eq', and_true]
    constructor
    · rintro ⟨range⟩
      omega
    · intro range
      exact .int (by omega)
  | _ =>
    constructor
    · rintro ⟨⟩
    · rintro ⟨_, ⟨⟩⟩

theorem toByteItems_eq_ok {items : List Value} {body : Bytes} :
    toByteItems items = .ok body ↔ List.Forall₂ (fun item b => item.toByte = .ok b) items body := by
  induction items generalizing body with
  | nil => simp [toByteItems, eq_comm]
  | cons item items ih =>
    simp only [toByteItems, bind_eq_ok, ih, pure_def, Except.ok.injEq]
    constructor
    · rintro ⟨b, hb, bs, hbs, rfl⟩
      exact .cons hb hbs
    · rintro (_ | ⟨hb, hbs⟩)
      exact ⟨_, hb, _, hbs, rfl⟩

end Value

/-- Something is found for each. -/
theorem exists_forall₂_iff {α β : Type} {p : α → β → Prop} {as : List α} :
    (∃ bs, List.Forall₂ p as bs) ↔ ∀ a ∈ as, ∃ b, p a b := by
  induction as with
  | nil => simp
  | cons a as ih =>
    rw [List.forall_mem_cons, ← ih]
    constructor
    · rintro ⟨_, _ | ⟨head, tail⟩⟩
      exact ⟨⟨_, head⟩, _, tail⟩
    · rintro ⟨⟨b, head⟩, bs, tail⟩
      exact ⟨b :: bs, .cons head tail⟩

/-- Items stand for as many bytes as they are, if each is a byte. -/
theorem Value.exists_toByteItems {items : List Value} {n : Nat} :
    (∃ body, toByteItems items = .ok body ∧ body.length = n) ↔
      items.length = n ∧ ∀ item ∈ items, IsByte item := by
  simp only [isByte_iff, toByteItems_eq_ok, ← exists_forall₂_iff]
  constructor
  · rintro ⟨body, h, rfl⟩
    exact ⟨h.length_eq, body, h⟩
  · rintro ⟨rfl, body, h⟩
    exact ⟨body, h, h.length_eq.symm⟩

/-- Items are refused for the first that is no byte. -/
theorem Value.toByteItems_eq_error {items : List Value} {fault : ByteFault} :
    toByteItems items = .error fault ↔ ∃ front item back, items = front ++ item :: back ∧
      (∀ item ∈ front, IsByte item) ∧ item.toByte = .error fault := by
  induction items with
  | nil => exact iff_of_false nofun (by simp)
  | cons first items ih =>
    show (toByte first >>= fun b => toByteItems items >>= fun bs => pure (b :: bs)) = _ ↔ _
    rw [bind_eq_error]
    constructor
    · rintro (hfirst | ⟨b, hb, hrest⟩)
      · exact ⟨[], first, items, rfl, nofun, hfirst⟩
      · rcases bind_eq_error.mp hrest with hrest | ⟨bs, -, hdone⟩
        · obtain ⟨front, item, back, rfl, hfront, hitem⟩ := ih.mp hrest
          have hbyte : IsByte first := isByte_iff.mpr ⟨b, hb⟩
          exact ⟨first :: front, item, back, rfl, List.forall_mem_cons.mpr ⟨hbyte, hfront⟩, hitem⟩
        · cases hdone
    · rintro ⟨_ | ⟨_, front⟩, item, back, heq, hfront, hitem⟩
      · cases heq
        exact .inl hitem
      · cases heq
        obtain ⟨hbyte, hfront⟩ := List.forall_mem_cons.mp hfront
        obtain ⟨b, hb⟩ := isByte_iff.mp hbyte
        exact .inr ⟨b, hb, bind_eq_error.mpr (.inl (ih.mpr ⟨front, item, back, rfl, hfront, hitem⟩))⟩

namespace Schema

open Value

theorem hasBytes_iff {v : Value} {n : Nat} :
    v.HasBytes n ↔ ∃ body, Spells v body ∧ body.length = n := by
  constructor
  · intro h
    cases h with
    | bytes body => exact ⟨body, .inl rfl, rfl⟩
    | @list items each =>
      obtain ⟨body, hbody, hlength⟩ := exists_toByteItems.mpr ⟨rfl, each⟩
      exact ⟨body, .inr ⟨items, rfl, hbody⟩, hlength⟩
  · rintro ⟨body, rfl | ⟨items, rfl, h⟩, rfl⟩
    · exact .bytes body
    · obtain ⟨hlength, each⟩ := exists_toByteItems.mp ⟨body, h, rfl⟩
      rw [← hlength]
      exact .list each

/-! ### What is written -/

/-- The value is written. -/
def Accepts (s : Schema) (v : Value) : Prop := ∃ bs, s.encode v = .ok bs

variable {s inner : Schema} {fields variants : List (Text × Schema)} {v : Value}

theorem accepts_text : Accepts .text v ↔ ∃ t, v = .text t ∧ (∀ c ∈ t, c.isSurrogate = false) ∧
    (t.flatMap Utf8.encodeOne).length ≤ maxLength := by
  constructor
  · rintro ⟨bs, h⟩
    obtain ⟨t, body, rfl, ht, hle, -⟩ := encode_text.mp h
    obtain ⟨hproper, rfl⟩ := Utf8.encode_eq_ok.mp ht
    exact ⟨t, rfl, hproper, hle⟩
  · rintro ⟨t, rfl, hproper, hle⟩
    exact ⟨_, encode_text.mpr ⟨t, _, rfl, Utf8.encode_eq_ok.mpr ⟨hproper, rfl⟩, hle, rfl⟩⟩

theorem accepts_bytes : Accepts .bytes v ↔ ∃ n, v.HasBytes n ∧ n ≤ maxLength := by
  constructor
  · rintro ⟨bs, h⟩
    obtain ⟨body, hspells, hle, -⟩ := encode_bytes.mp h
    exact ⟨_, hasBytes_iff.mpr ⟨body, hspells, rfl⟩, hle⟩
  · rintro ⟨n, h, hle⟩
    obtain ⟨body, hspells, rfl⟩ := hasBytes_iff.mp h
    exact ⟨_, encode_bytes.mpr ⟨body, hspells, hle, rfl⟩⟩

theorem accepts_fixedBytes {length : Nat} : Accepts (.fixedBytes length) v ↔ v.HasBytes length := by
  rw [hasBytes_iff]
  exact exists_congr fun _ => encode_fixedBytes

theorem accepts_option : Accepts (.option inner) v ↔ v = .none ∨ Accepts inner v := by
  constructor
  · rintro ⟨bs, h⟩
    obtain ⟨hv, -⟩ | ⟨-, body, h, -⟩ := encode_option.mp h
    · exact .inl hv
    · exact .inr ⟨body, h⟩
  · intro h
    by_cases hv : v = .none
    · exact ⟨_, encode_option.mpr (.inl ⟨hv, rfl⟩)⟩
    · obtain ⟨body, h⟩ := h.resolve_left hv
      exact ⟨_, encode_option.mpr (.inr ⟨hv, body, h, rfl⟩)⟩

theorem accepts_vec : Accepts (.vec inner) v ↔ ∃ items, v = .list items ∧
    items.length ≤ maxLength ∧ ∀ item ∈ items, Accepts inner item := by
  constructor
  · rintro ⟨bs, h⟩
    obtain ⟨items, parts, rfl, hle, hparts, -⟩ := encode_vec.mp h
    exact ⟨items, rfl, hle, exists_forall₂_iff.mp ⟨parts, hparts⟩⟩
  · rintro ⟨items, rfl, hle, h⟩
    obtain ⟨parts, hparts⟩ := exists_forall₂_iff.mpr h
    exact ⟨_, encode_vec.mpr ⟨items, parts, rfl, hle, hparts, rfl⟩⟩

theorem accepts_array {length : Nat} : Accepts (.array inner length) v ↔ ∃ items, v = .list items ∧
    items.length = length ∧ ∀ item ∈ items, Accepts inner item := by
  constructor
  · rintro ⟨bs, h⟩
    obtain ⟨items, parts, rfl, hl, hparts, -⟩ := encode_array.mp h
    exact ⟨items, rfl, hl, exists_forall₂_iff.mp ⟨parts, hparts⟩⟩
  · rintro ⟨items, rfl, hl, h⟩
    obtain ⟨parts, hparts⟩ := exists_forall₂_iff.mpr h
    exact ⟨_, encode_array.mpr ⟨items, parts, rfl, hl, hparts, rfl⟩⟩

/-- The keys of a mapping are the names of the fields, in any order. -/
def HasKeys (entries : Entries) (fields : List (Text × Schema)) : Prop :=
  (entries.map (·.1)).Perm (fields.map fun f => .text f.1)

theorem HasKeys.nodup {entries : Entries} (hn : (fields.map (·.1)).Nodup)
    (hk : HasKeys entries fields) : (entries.map (·.1)).Nodup :=
  hk.nodup_iff.mpr (keys_nodup hn)

theorem HasKeys.exists_field {entries : Entries} (hk : HasKeys entries fields) {f : Text × Schema}
    (hf : f ∈ fields) : ∃ v, entries.field? f.1 = some v := by
  refine Option.isSome_iff_exists.mp (Entries.field?_isSome.mpr (hk.mem_iff.mpr ?_))
  exact List.mem_map_of_mem (f := fun f : Text × Schema => Value.text f.1) hf

/-- Fields are written if each of their values is. -/
theorem accepts_fields {entries : Entries} :
    (∃ bs, encodeFields fields entries = .ok bs) ↔
      ∀ f ∈ fields, ∃ v, entries.field? f.1 = some v ∧ Accepts f.2 v := by
  induction fields with
  | nil => exact iff_of_true ⟨[], rfl⟩ (by simp)
  | cons f fields ih =>
    obtain ⟨name, s⟩ := f
    rw [List.forall_mem_cons, ← ih]
    cases hv : entries.field? name with
    | none =>
      refine iff_of_false ?_ (by simp)
      simp [encodeFields, hv]
    | some v =>
      simp only [encodeFields_cons hv]
      constructor
      · rintro ⟨_, front, h, back, hb, rfl⟩
        exact ⟨⟨v, rfl, front, h⟩, back, hb⟩
      · rintro ⟨⟨w, ⟨⟩, front, h⟩, back, hb⟩
        exact ⟨_, front, h, back, hb, rfl⟩

theorem accepts_record (hn : (fields.map (·.1)).Nodup) : Accepts (.record fields) v ↔
    ∃ entries : Entries, v = .map entries ∧ HasKeys entries fields ∧
      ∀ f ∈ fields, ∀ w, (.text f.1, w) ∈ entries → Accepts f.2 w := by
  cases v with
  | map entries =>
    have hencode : Accepts (.record fields) (.map entries) ↔
        HasKeys entries fields ∧ ∃ bs, encodeFields fields entries = .ok bs := by
      show (∃ bs, (checkFields fields entries >>= fun _ => encodeFields fields entries) = .ok bs) ↔ _
      simp only [bind_eq_ok, checkFields_eq_ok hn, exists_and_left, exists_const]
      rfl
    rw [hencode, accepts_fields]
    constructor
    · rintro ⟨hk, h⟩
      refine ⟨entries, rfl, hk, fun f hf w hw => ?_⟩
      obtain ⟨v, hv, hacc⟩ := h f hf
      cases hv.symm.trans (Entries.field?_of_mem (hk.nodup hn) hw)
      exact hacc
    · rintro ⟨_, heq, hk, h⟩
      cases heq
      refine ⟨hk, fun f hf => ?_⟩
      obtain ⟨v, hv⟩ := hk.exists_field hf
      exact ⟨v, hv, h f hf v (Entries.mem_of_field? hv)⟩
  | _ =>
    refine iff_of_false ?_ (by simp)
    rintro ⟨_, h⟩
    exact misfit_ne_ok h

theorem accepts_union (hn : (variants.map (·.1)).Nodup) : Accepts (.union variants) v ↔
    ∃ name s payload, (name, s) ∈ variants ∧ v = .map [(.text name, payload)] ∧
      Accepts s payload := by
  constructor
  · rintro ⟨bs, h⟩
    obtain ⟨index, name, s, payload, body, hi, rfl, h, -⟩ := (encode_union hn).mp h
    exact ⟨name, s, payload, List.mem_of_getElem? hi, rfl, body, h⟩
  · rintro ⟨name, s, payload, hmem, rfl, body, h⟩
    obtain ⟨index, hi⟩ := List.getElem?_of_mem hmem
    exact ⟨_, (encode_union hn).mpr ⟨index, name, s, payload, body, hi, rfl, h, rfl⟩⟩

end Schema

end LedgerWire
