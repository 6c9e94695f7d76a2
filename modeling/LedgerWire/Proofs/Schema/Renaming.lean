import LedgerWire.Proofs.Schema.Acceptance
import LedgerWire.Proofs.Schema.ByteLists
import Mathlib.Logic.Equiv.Basic

/-!
# Other names

Names are not written. `Schema.Renames` says that a schema is another one with other names in its
records and unions. A `Renaming` gives a permutation of texts for each node, so that keys that are no
names are renamed as well, and no two keys become one; `Schema.rename` and `Schema.renameValue` carry it
out. The renamed value is written by the renamed schema in the same bytes, and read from them.
-/

namespace LedgerWire

/-- The new names in each node. A node is told by the names that lead to it. -/
abbrev Renaming := List Text → Equiv.Perm Text

namespace Renaming

/-- The new names in the node itself. -/
def here (ρ : Renaming) : Equiv.Perm Text := ρ []

/-- The new names in the nodes under a name. -/
def under (ρ : Renaming) (name : Text) : Renaming := fun path => ρ (name :: path)

/-- The new names in a node and in those under its names. -/
def node (π : Equiv.Perm Text) (child : Text → Renaming) : Renaming
  | [] => π
  | name :: path => child name path

@[simp]
theorem here_node (π : Equiv.Perm Text) (child : Text → Renaming) : (node π child).here = π := rfl

end Renaming

/-! ### Keys -/

/-- A key under its new name. -/
def Value.renameKey (π : Equiv.Perm Text) : Value → Value
  | .text t => .text (π t)
  | v => v

theorem Value.renameKey_injective (π : Equiv.Perm Text) : Function.Injective (renameKey π) := by
  intro v w h
  cases v with
  | text t =>
    cases w with
    | text u => exact congrArg Value.text (π.injective (Value.text.inj h))
    | _ => cases h
  | _ =>
    cases w with
    | text u => cases h
    | _ => exact h

/-- Names go to any other names, if neither are taken twice. -/
theorem exists_perm {names names' : List Text} (hn : names.Nodup) (hn' : names'.Nodup)
    (hlength : names.length = names'.length) : ∃ π : Equiv.Perm Text, names.map π = names' := by
  induction names generalizing names' with
  | nil => exact ⟨Equiv.refl Text, (List.length_eq_zero_iff.mp hlength.symm).symm⟩
  | cons name names ih =>
    cases names' with
    | nil => cases hlength
    | cons name' names' =>
      obtain ⟨hname, hnames⟩ := List.nodup_cons.mp hn
      obtain ⟨hname', hnames'⟩ := List.nodup_cons.mp hn'
      obtain ⟨π, rfl⟩ := ih hnames hnames' (Nat.succ.inj hlength)
      refine ⟨π.trans (Equiv.swap (π name) name'), congrArg₂ List.cons ?_ ?_⟩
      · exact Equiv.swap_apply_left _ _
      · refine List.map_congr_left fun t ht => ?_
        refine Equiv.swap_apply_of_ne_of_ne (fun h => hname ?_) (fun h => hname' ?_)
        · rwa [← π.injective h]
        · rw [← h]
          exact List.mem_map_of_mem ht

namespace Schema

open Value

/-! ### Schemas with other names -/

mutual

/-- The second schema is the first one with other names; they are not empty, and no two fields or
variants of a node have the same. -/
inductive Renames : Schema → Schema → Prop
  | integer (w : Width) (signed : Bool) : Renames (.integer w signed) (.integer w signed)
  | floatInteger (w : Width) (signed : Bool) :
    Renames (.floatInteger w signed) (.floatInteger w signed)
  | bool : Renames .bool .bool
  | text : Renames .text .text
  | bytes : Renames .bytes .bytes
  | fixedBytes (length : Nat) : Renames (.fixedBytes length) (.fixedBytes length)
  | option {s s' : Schema} (inner : Renames s s') : Renames (.option s) (.option s')
  | vec {s s' : Schema} (inner : Renames s s') : Renames (.vec s) (.vec s')
  | array {s s' : Schema} (inner : Renames s s') (length : Nat) :
    Renames (.array s length) (.array s' length)
  | record {fields fields' : List (Text × Schema)} (names : namesSound fields')
    (each : RenamesFields fields fields') : Renames (.record fields) (.record fields')
  | union {variants variants' : List (Text × Schema)} (names : namesSound variants')
    (each : RenamesFields variants variants') : Renames (.union variants) (.union variants')

inductive RenamesFields : List (Text × Schema) → List (Text × Schema) → Prop
  | nil : RenamesFields [] []
  | cons {name name' : Text} {s s' : Schema} {fields fields' : List (Text × Schema)}
    (head : Renames s s') (tail : RenamesFields fields fields') :
    RenamesFields ((name, s) :: fields) ((name', s') :: fields')

end

mutual

/-- The schema under its new names. -/
def rename : Renaming → Schema → Schema
  | ρ, .option inner => .option (rename ρ inner)
  | ρ, .vec inner => .vec (rename ρ inner)
  | ρ, .array inner length => .array (rename ρ inner) length
  | ρ, .record fields => .record (renameFields ρ fields)
  | ρ, .union variants => .union (renameFields ρ variants)
  | _, s => s

def renameFields : Renaming → List (Text × Schema) → List (Text × Schema)
  | _, [] => []
  | ρ, (name, s) :: fields => (ρ.here name, rename (ρ.under name) s) :: renameFields ρ fields

end

mutual

/-- The value with the keys that the schema gives new names to. -/
def renameValue : Renaming → Schema → Value → Value
  | ρ, .option inner, v => renameValue ρ inner v
  | ρ, .vec inner, .list items => .list (items.map (renameValue ρ inner))
  | ρ, .array inner _, .list items => .list (items.map (renameValue ρ inner))
  | ρ, .record fields, .map entries =>
    .map (entries.map fun e => (e.1.renameKey ρ.here, renameAt ρ fields e.1 e.2))
  | ρ, .union variants, .map entries =>
    .map (entries.map fun e => (e.1.renameKey ρ.here, renameAt ρ variants e.1 e.2))
  | _, _, v => v

/-- The value of the field or variant that the key is the old name of. -/
def renameAt : Renaming → List (Text × Schema) → (key : Value) → Value → Value
  | _, [], _, v => v
  | ρ, (name, s) :: fields, .text t, v =>
    if t = name then renameValue (ρ.under name) s v else renameAt ρ fields (.text t) v
  | _, _ :: _, _, v => v

end

variable {ρ : Renaming} {s s' inner : Schema} {fields fields' variants : List (Text × Schema)}
  {v : Value} {bs : Bytes}

theorem renameFields_eq (ρ : Renaming) (fields : List (Text × Schema)) :
    renameFields ρ fields = fields.map fun f => (ρ.here f.1, f.2.rename (ρ.under f.1)) := by
  induction fields with
  | nil => rfl
  | cons f fields ih =>
    show (ρ.here f.1, f.2.rename (ρ.under f.1)) :: renameFields ρ fields = _
    rw [ih, List.map_cons]

@[simp] theorem map_fst_renameFields (ρ : Renaming) (fields : List (Text × Schema)) :
    (renameFields ρ fields).map (·.1) = (fields.map (·.1)).map ρ.here := by
  rw [renameFields_eq, List.map_map, List.map_map]
  rfl

theorem nodup_renameFields (hn : (fields.map (·.1)).Nodup) :
    ((renameFields ρ fields).map (·.1)).Nodup := by
  rw [map_fst_renameFields]
  exact hn.map ρ.here.injective

theorem RenamesFields.length_eq (h : RenamesFields fields fields') :
    fields.length = fields'.length := by
  induction fields generalizing fields' with
  | nil =>
    cases h
    rfl
  | cons f fields ih =>
    cases h with
    | cons head tail => exact congrArg (· + 1) (ih tail)

/-- Distinct names leave room for other names in each of the parts. -/
theorem exists_child (hn : (fields.map (·.1)).Nodup) (h : RenamesFields fields fields')
    (ih : ∀ f ∈ fields, ∀ s', Renames f.2 s' → ∃ ρ : Renaming, f.2.rename ρ = s') :
    ∃ child : Text → Renaming,
      (fields.map fun f => f.2.rename (child f.1)) = fields'.map (·.2) := by
  induction fields generalizing fields' with
  | nil =>
    cases h
    exact ⟨fun _ _ => Equiv.refl Text, rfl⟩
  | cons f fields ihf =>
    obtain ⟨name, s⟩ := f
    obtain ⟨hname, hnames⟩ := List.nodup_cons.mp hn
    obtain ⟨hs, hfields⟩ := List.forall_mem_cons.mp ih
    cases h with
    | cons head tail =>
      obtain ⟨ρ, rfl⟩ := hs _ head
      obtain ⟨child, hchild⟩ := ihf hnames tail hfields
      refine ⟨Function.update child name ρ, congrArg₂ List.cons ?_ ?_⟩
      · show s.rename (Function.update child name ρ name) = _
        rw [Function.update_self]
      · rw [← hchild]
        refine List.map_congr_left fun g hg => ?_
        have hne : g.1 ≠ name := by
          rintro rfl
          exact hname (List.mem_map_of_mem (f := (·.1)) hg)
        rw [Function.update_of_ne hne]

theorem exists_renameFields (hn : (fields.map (·.1)).Nodup) (hn' : (fields'.map (·.1)).Nodup)
    (h : RenamesFields fields fields')
    (ih : ∀ f ∈ fields, ∀ s', Renames f.2 s' → ∃ ρ : Renaming, f.2.rename ρ = s') :
    ∃ ρ : Renaming, renameFields ρ fields = fields' := by
  have hlength : (fields.map (·.1)).length = (fields'.map (·.1)).length := by
    rw [List.length_map, List.length_map, h.length_eq]
  obtain ⟨π, hπ⟩ := exists_perm hn hn' hlength
  obtain ⟨child, hchild⟩ := exists_child hn h ih
  refine ⟨.node π child, ?_⟩
  have hfst : (renameFields (.node π child) fields).map (·.1) = fields'.map (·.1) := by
    simp [hπ]
  have hsnd : (renameFields (.node π child) fields).map (·.2) = fields'.map (·.2) := by
    rw [renameFields_eq, List.map_map, ← hchild]
    rfl
  exact (List.zip_of_prod hfst hsnd).trans (List.zip_of_prod rfl rfl).symm

/-- Other names are the new names of a renaming. -/
theorem exists_renaming (hs : s.all isSound) (h : Renames s s') :
    ∃ ρ : Renaming, s.rename ρ = s' := by
  induction s generalizing s' with
  | option inner ih =>
    cases h with
    | option h =>
      obtain ⟨ρ, rfl⟩ := ih (all_option hs) h
      exact ⟨ρ, rfl⟩
  | vec inner ih =>
    cases h with
    | vec h =>
      obtain ⟨ρ, rfl⟩ := ih (all_vec hs) h
      exact ⟨ρ, rfl⟩
  | array inner length ih =>
    cases h with
    | array h =>
      obtain ⟨ρ, rfl⟩ := ih (all_array hs) h
      exact ⟨ρ, rfl⟩
  | record fields ih =>
    cases h with
    | record names each =>
      obtain ⟨ρ, rfl⟩ := exists_renameFields (nodup_of_record hs) (nodup_of_names names) each
        fun f hf s' => ih f hf (all_record hs f hf)
      exact ⟨ρ, rfl⟩
  | union variants ih =>
    cases h with
    | union names each =>
      obtain ⟨ρ, rfl⟩ := exists_renameFields (nodup_of_union hs) (nodup_of_names names) each
        fun f hf s' => ih f hf (all_union hs f hf)
      exact ⟨ρ, rfl⟩
  | _ =>
    cases h
    exact ⟨fun _ => Equiv.refl Text, rfl⟩

/-! ### The same checks -/

theorem map_minSize_renameFields
    (h : ∀ f ∈ fields, ∀ ρ : Renaming, (f.2.rename ρ).minSize = f.2.minSize) (ρ : Renaming) :
    (renameFields ρ fields).map (·.2.minSize) = fields.map (·.2.minSize) := by
  rw [renameFields_eq, List.map_map]
  exact List.map_congr_left fun f hf => h f hf (ρ.under f.1)

/-- The fewest bytes do not depend on names. -/
@[simp] theorem minSize_rename (s : Schema) (ρ : Renaming) : (s.rename ρ).minSize = s.minSize := by
  induction s generalizing ρ with
  | array inner length ih =>
    show ((inner.rename ρ).minSize >>= fun size => size.mul (.int length)) = _
    rw [ih]
    rfl
  | record fields ih => exact minSize_record_congr (map_minSize_renameFields ih ρ)
  | union variants ih => exact minSize_union_congr (map_minSize_renameFields ih ρ)
  | _ => rfl

theorem isSized_of_renames (hs : s.all isSound) (h : Renames s s') : s'.isSized = s.isSized := by
  obtain ⟨ρ, rfl⟩ := exists_renaming hs h
  simp [isSized]

theorem RenamesFields.exists_mem (h : RenamesFields fields fields') {f' : Text × Schema}
    (hf' : f' ∈ fields') : ∃ f ∈ fields, Renames f.2 f'.2 := by
  induction fields generalizing fields' with
  | nil =>
    cases h
    cases hf'
  | cons f fields ih =>
    cases h with
    | cons head tail =>
      rcases List.mem_cons.mp hf' with rfl | hf'
      · exact ⟨_, List.mem_cons_self, head⟩
      · obtain ⟨g, hg, hrenames⟩ := ih tail hf'
        exact ⟨g, List.mem_cons_of_mem _ hg, hrenames⟩

/-- The checks that a schema passes do not depend on names. -/
theorem sound_of_renames (hs : s.all isSound) (h : Renames s s') : s'.all isSound := by
  induction s generalizing s' with
  | option inner ih =>
    cases h with
    | option h => exact all_option_iff.mpr ⟨rfl, ih (all_option hs) h⟩
  | vec inner ih =>
    have hsized : (vec inner).isSound := all_self hs
    cases h with
    | vec h =>
      refine all_vec_iff.mpr ⟨?_, ih (all_vec hs) h⟩
      exact (isSized_of_renames (all_vec hs) h).trans hsized
  | array inner length ih =>
    have hsized : (array inner length).isSound := all_self hs
    cases h with
    | array h =>
      refine all_array_iff.mpr ⟨?_, ih (all_array hs) h⟩
      exact (isSized_of_renames (all_array hs) h).trans hsized
  | record fields ih =>
    cases h with
    | record names each =>
      refine all_record_iff.mpr ⟨names, fun f' hf' => ?_⟩
      obtain ⟨f, hf, h⟩ := each.exists_mem hf'
      exact ih f hf (all_record hs f hf) h
  | union variants ih =>
    cases h with
    | @union _ variants' names each =>
      refine all_union_iff.mpr ⟨?_, fun f' hf' => ?_⟩
      · have hlength := each.length_eq
        have hmax := length_of_union hs
        have hne : variants' ≠ [] := by
          rintro rfl
          exact ne_nil_of_union hs (List.length_eq_zero_iff.mp hlength)
        have hle : variants'.length ≤ maxVariants := hlength ▸ hmax
        simpa [isSound, names, hle] using hne
      · obtain ⟨f, hf, h⟩ := each.exists_mem hf'
        exact ih f hf (all_union hs f hf) h
  | _ =>
    cases h
    exact hs

/-! ### The renamed value -/

theorem renameAt_of_mem {name : Text} (hn : (fields.map (·.1)).Nodup) (h : (name, s) ∈ fields) :
    renameAt ρ fields (.text name) v = renameValue (ρ.under name) s v := by
  induction fields with
  | nil => cases h
  | cons f fields ih =>
    obtain ⟨hnot, hn⟩ := List.nodup_cons.mp hn
    rcases List.mem_cons.mp h with rfl | h
    · exact if_pos rfl
    · have hne : name ≠ f.1 := by
        rintro rfl
        exact hnot (List.mem_map_of_mem (f := (·.1)) h)
      exact (if_neg hne).trans (ih hn h)

@[simp] theorem renameValue_none : renameValue ρ s .none = .none := by
  induction s with
  | option inner ih => exact ih
  | _ => rfl

theorem eq_none_of_renameValue (h : renameValue ρ s v = .none) : v = .none := by
  induction s with
  | option inner ih => exact ih h
  | _ =>
    cases v with
    | none => rfl
    | _ => cases h

/-- An entry under the new name of its key. -/
def renameEntry (ρ : Renaming) (fields : List (Text × Schema)) (e : Value × Value) : Value × Value :=
  (e.1.renameKey ρ.here, renameAt ρ fields e.1 e.2)

theorem field?_renameEntry (ρ : Renaming) (fields : List (Text × Schema)) (entries : Entries)
    (name : Text) :
    Entries.field? (ρ.here name) (entries.map (renameEntry ρ fields)) =
      (Entries.field? name entries).map (renameAt ρ fields (.text name)) := by
  induction entries with
  | nil => rfl
  | cons e entries ih =>
    obtain ⟨key, v⟩ := e
    by_cases hk : key = .text name
    · subst hk
      rw [Entries.field?_cons_self]
      exact Entries.field?_cons_self _ _ _
    · have hk' : key.renameKey ρ.here ≠ .text (ρ.here name) := fun h =>
        hk (renameKey_injective ρ.here h)
      rw [Entries.field?_cons_of_ne hk, ← ih]
      exact Entries.field?_cons_of_ne hk' _ _

theorem hasKeys_rename {entries : Entries} :
    HasKeys (entries.map (renameEntry ρ fields)) (renameFields ρ fields) ↔ HasKeys entries fields := by
  have hkeys : (entries.map (renameEntry ρ fields)).map (·.1) =
      (entries.map (·.1)).map (renameKey ρ.here) := by
    rw [List.map_map, List.map_map]
    rfl
  have hnames : (renameFields ρ fields).map (fun f => Value.text f.1) =
      (fields.map fun f => Value.text f.1).map (renameKey ρ.here) := by
    rw [renameFields_eq, List.map_map, List.map_map]
    rfl
  unfold HasKeys
  rw [hkeys, hnames, List.map_perm_map_iff (renameKey_injective ρ.here)]

/-! ### What is written -/

theorem encodeItems_rename (items : List Value)
    (ih : ∀ v bs, encode (inner.rename ρ) (renameValue ρ inner v) = .ok bs ↔ encode inner v = .ok bs)
    (parts : List Bytes) :
    List.Forall₂ (fun item part => encode (inner.rename ρ) item = .ok part)
        (items.map (renameValue ρ inner)) parts ↔
      List.Forall₂ (fun item part => encode inner item = .ok part) items parts := by
  rw [List.forall₂_map_left_iff]
  simp only [ih]

theorem encodeFields_rename {fields : List (Text × Schema)} {entries : Entries}
    {part : List (Text × Schema)} (hn : (fields.map (·.1)).Nodup) (hpart : part ⊆ fields)
    (ih : ∀ f ∈ fields, ∀ (ρ : Renaming) v bs,
      encode (f.2.rename ρ) (renameValue ρ f.2 v) = .ok bs ↔ encode f.2 v = .ok bs) :
    encodeFields (renameFields ρ part) (entries.map (renameEntry ρ fields)) = .ok bs ↔
      encodeFields part entries = .ok bs := by
  induction part generalizing bs with
  | nil => exact Iff.rfl
  | cons f part ihp =>
    obtain ⟨name, s⟩ := f
    obtain ⟨hmem, hlater⟩ := List.cons_subset.mp hpart
    have hfield := field?_renameEntry ρ fields entries name
    show encodeFields ((ρ.here name, s.rename (ρ.under name)) :: renameFields ρ part) _ = _ ↔ _
    cases hv : entries.field? name with
    | none =>
      rw [hv] at hfield
      refine iff_of_false ?_ ?_
      · simp [encodeFields, hfield]
      · simp [encodeFields, hv]
    | some v =>
      rw [hv, Option.map_some, renameAt_of_mem hn hmem] at hfield
      rw [encodeFields_cons hfield, encodeFields_cons hv]
      simp only [ih _ hmem, ihp hlater]

theorem encode_record_rename {entries : Entries} (hn : (fields.map (·.1)).Nodup)
    (ih : ∀ f ∈ fields, ∀ (ρ : Renaming) v bs,
      encode (f.2.rename ρ) (renameValue ρ f.2 v) = .ok bs ↔ encode f.2 v = .ok bs) :
    encode (rename ρ (.record fields)) (renameValue ρ (.record fields) (.map entries)) = .ok bs ↔
      encode (.record fields) (.map entries) = .ok bs := by
  have hkeys : checkFields (renameFields ρ fields) (entries.map (renameEntry ρ fields)) = .ok () ↔
      checkFields fields entries = .ok () := by
    rw [checkFields_eq_ok (nodup_renameFields hn), checkFields_eq_ok hn]
    exact hasKeys_rename
  show (checkFields (renameFields ρ fields) (entries.map (renameEntry ρ fields)) >>= fun _ =>
      encodeFields (renameFields ρ fields) (entries.map (renameEntry ρ fields))) = .ok bs ↔
    (checkFields fields entries >>= fun _ => encodeFields fields entries) = .ok bs
  simp only [bind_eq_ok]
  exact exists_congr fun _ => and_congr hkeys (encodeFields_rename hn (List.Subset.refl _) ih)

/-- The single entry of a mapping is that of the renamed mapping. -/
theorem renameEntry_eq_singleton {entries : Entries} {name : Text} {payload : Value}
    (h : entries.map (renameEntry ρ fields) = [(.text (ρ.here name), payload)]) :
    ∃ w, entries = [(.text name, w)] ∧ renameAt ρ fields (.text name) w = payload := by
  obtain ⟨⟨key, w⟩, rfl, he⟩ := List.map_eq_singleton_iff.mp h
  obtain ⟨hkey, hpayload⟩ := Prod.mk.inj he
  obtain rfl : key = .text name := renameKey_injective ρ.here hkey
  exact ⟨w, rfl, hpayload⟩

theorem encode_union_rename (hn : (variants.map (·.1)).Nodup)
    (ih : ∀ f ∈ variants, ∀ (ρ : Renaming) v bs,
      encode (f.2.rename ρ) (renameValue ρ f.2 v) = .ok bs ↔ encode f.2 v = .ok bs) :
    encode (rename ρ (.union variants)) (renameValue ρ (.union variants) v) = .ok bs ↔
      encode (.union variants) v = .ok bs := by
  show encode (.union (renameFields ρ variants)) _ = _ ↔ _
  rw [encode_union (nodup_renameFields hn), encode_union hn]
  constructor
  · rintro ⟨index, name', s', payload', body, hi, hv, hb, rfl⟩
    rw [renameFields_eq, List.getElem?_map, Option.map_eq_some_iff] at hi
    obtain ⟨⟨name, s⟩, hi, ⟨⟩⟩ := hi
    have hmem := List.mem_of_getElem? hi
    cases v with
    | map entries =>
      obtain ⟨w, rfl, rfl⟩ := renameEntry_eq_singleton (Value.map.inj hv)
      rw [renameAt_of_mem hn hmem] at hb
      exact ⟨index, name, s, w, body, hi, rfl, (ih _ hmem _ _ _).mp hb, rfl⟩
    | _ => cases hv
  · rintro ⟨index, name, s, payload, body, hi, rfl, hb, rfl⟩
    have hmem := List.mem_of_getElem? hi
    refine ⟨index, ρ.here name, s.rename (ρ.under name), _, body, ?_, rfl, ?_, rfl⟩
    · rw [renameFields_eq, List.getElem?_map, hi]
      rfl
    · rw [renameAt_of_mem hn hmem]
      exact (ih _ hmem _ _ _).mpr hb

/-- The renamed value is written in the bytes of the value, or neither is written. -/
theorem encode_rename (hs : s.all isSound) (ρ : Renaming) (v : Value) (bs : Bytes) :
    encode (s.rename ρ) (renameValue ρ s v) = .ok bs ↔ encode s v = .ok bs := by
  induction s generalizing ρ v bs with
  | option inner ih =>
    show encode (.option (inner.rename ρ)) (renameValue ρ inner v) = .ok bs ↔ _
    have hnone : renameValue ρ inner v = .none ↔ v = .none := by
      refine ⟨eq_none_of_renameValue, ?_⟩
      rintro rfl
      exact renameValue_none
    rw [encode_option, encode_option]
    simp only [hnone, ne_eq, ih (all_option hs)]
  | vec inner ih =>
    cases v with
    | list items =>
      show encode (.vec (inner.rename ρ)) (.list (items.map (renameValue ρ inner))) = .ok bs ↔ _
      rw [encode_vec, encode_vec]
      have hitems := encodeItems_rename items (ih (all_vec hs) ρ)
      constructor
      · rintro ⟨_, parts, heq, hle, hparts, rfl⟩
        cases heq
        rw [List.length_map] at hle ⊢
        exact ⟨items, parts, rfl, hle, (hitems parts).mp hparts, rfl⟩
      · rintro ⟨_, parts, heq, hle, hparts, rfl⟩
        cases heq
        refine ⟨_, parts, rfl, ?_, (hitems parts).mpr hparts, ?_⟩
        · rwa [List.length_map]
        · rw [List.length_map]
    | _ => exact iff_of_false misfit_ne_ok misfit_ne_ok
  | array inner length ih =>
    cases v with
    | list items =>
      show encode (.array (inner.rename ρ) length) (.list (items.map (renameValue ρ inner))) =
        .ok bs ↔ _
      rw [encode_array, encode_array]
      have hitems := encodeItems_rename items (ih (all_array hs) ρ)
      constructor
      · rintro ⟨_, parts, heq, hl, hparts, rfl⟩
        cases heq
        rw [List.length_map] at hl
        exact ⟨items, parts, rfl, hl, (hitems parts).mp hparts, rfl⟩
      · rintro ⟨_, parts, heq, hl, hparts, rfl⟩
        cases heq
        exact ⟨_, parts, rfl, by rwa [List.length_map], (hitems parts).mpr hparts, rfl⟩
    | _ => exact iff_of_false misfit_ne_ok misfit_ne_ok
  | record fields ih =>
    cases v with
    | map entries =>
      exact encode_record_rename (nodup_of_record hs) fun f hf => ih f hf (all_record hs f hf)
    | _ => exact iff_of_false misfit_ne_ok misfit_ne_ok
  | union variants ih =>
    exact encode_union_rename (nodup_of_union hs) fun f hf => ih f hf (all_union hs f hf)
  | _ => exact Iff.rfl

/-! ### What is read -/

theorem agrees_of_eq {α : Type} {g : α → α} (h : ∀ a, g a = a)
    (r : Except DecodeError (α × Cursor)) : Agrees g r r := by
  obtain rfl : g = id := funext h
  exact Agrees.refl r

theorem agrees_fields_rename {part : List (Text × Schema)} (hn : (fields.map (·.1)).Nodup)
    (hpart : part ⊆ fields)
    (ih : ∀ f ∈ fields, ∀ (ρ : Renaming) c,
      Agrees (renameValue ρ f.2) (read f.2 c) (read (f.2.rename ρ) c)) (c : Cursor) :
    Agrees (List.map (renameEntry ρ fields)) (readFields part c)
      (readFields (renameFields ρ part) c) := by
  induction part generalizing c with
  | nil => exact .ok (List.map (renameEntry ρ fields)) [] c
  | cons f part ihp =>
    obtain ⟨name, s⟩ := f
    obtain ⟨hmem, hlater⟩ := List.cons_subset.mp hpart
    refine (ih _ hmem (ρ.under name) c).bind fun v c₁ => (ihp hlater c₁).bind fun entries c₂ => ?_
    have hentry : renameEntry ρ fields (.text name, v) =
        (.text (ρ.here name), renameValue (ρ.under name) s v) :=
      congrArg (Prod.mk _) (renameAt_of_mem hn hmem)
    refine .inl ⟨(.text name, v) :: entries, c₂, rfl, ?_⟩
    rw [List.map_cons, hentry]
    rfl

/-- The same bytes are read as the renamed value, or refused alike. -/
theorem agrees_read_rename (hs : s.all isSound) (ρ : Renaming) (c : Cursor) :
    Agrees (renameValue ρ s) (read s c) (read (s.rename ρ) c) := by
  induction s generalizing ρ c with
  | option inner ih => exact agrees_option renameValue_none (ih (all_option hs) ρ) c
  | vec inner ih => exact agrees_vec (fun _ => rfl) (minSize_rename inner ρ) (ih (all_vec hs) ρ) c
  | array inner length ih => exact agrees_array (fun _ => rfl) (ih (all_array hs) ρ) length c
  | record fields ih =>
    have hfields := agrees_fields_rename (ρ := ρ) (nodup_of_record hs) (List.Subset.refl fields)
      (fun f hf => ih f hf (all_record hs f hf)) c
    exact hfields.bind fun entries c₁ => .ok (renameValue ρ (.record fields)) (.map entries) c₁
  | union variants ih =>
    refine (Agrees.refl c.next).bind fun tag c₁ => ?_
    dsimp only [id]
    rw [readVariant_eq, readVariant_eq, renameFields_eq, List.getElem?_map]
    cases hv : variants[tag.toNat]? with
    | none => exact .error _ rfl
    | some variant =>
      have hmem := List.mem_of_getElem? hv
      let named (name : Text) (payload : Value) : Value := .map [(.text name, payload)]
      refine (ih variant hmem (all_union hs _ hmem) (ρ.under variant.1) c₁).map (named variant.1)
        (named (ρ.here variant.1)) fun payload => ?_
      show Value.map [(_, renameAt ρ variants (.text variant.1) payload)] = _
      rw [renameAt_of_mem (nodup_of_union hs) hmem]
      rfl
  | _ => exact agrees_of_eq (fun _ => rfl) _

/-- Names never reach the wire. A schema with other names can be built too, and is that of a renaming;
by any such renaming, the renamed value is written in the same bytes, and the same bytes are read as the
renamed value or refused with an error of the same category. -/
theorem renamed_same_wire (b : Blueprint) (s s' : Schema) (hs : b.build = .ok s)
    (h : Renames s s') :
    (∃ b' : Blueprint, b'.build = .ok s') ∧ (∃ ρ : Renaming, s.rename ρ = s') ∧
      ∀ ρ : Renaming, s.rename ρ = s' →
        (∀ v bs, s'.encode (renameValue ρ s v) = .ok bs ↔ s.encode v = .ok bs) ∧
        ∀ data, (∃ v n, s.decode data = .ok (v, n) ∧
            s'.decode data = .ok (renameValue ρ s v, n)) ∨
          ∃ x x', s.decode data = .error x ∧ s'.decode data = .error x' ∧
            x.category = x'.category := by
  have hsound := Blueprint.sound_of_build hs
  refine ⟨Blueprint.exists_build (sound_of_renames hsound h), exists_renaming hsound h, ?_⟩
  rintro ρ rfl
  exact ⟨encode_rename hsound ρ, decode_of_agrees (agrees_read_rename hsound ρ)⟩

/-- A record and a union in it, each with its two names exchanged. -/
theorem renamed_same_wire_swapped :
    let s : Schema := record [("a", u8), ("b", option (union [("x", unit), ("y", u8)]))]
    let s' : Schema := record [("b", u8), ("a", option (union [("y", unit), ("x", u8)]))]
    let v' : Value := .map [(.text "b", .int 7), (.text "a", .map [(.text "x", .int 9)])]
    (∃ b : Blueprint, b.build = .ok s) ∧ Renames s s' ∧ s'.encode v' = .ok [7, 1, 1, 9] ∧
      s'.decode [7, 1, 1, 9] = .ok (v', 4) ∧
      ∃ x, s'.decode [7, 1, 2] = .error x ∧ x.category = .discriminant := by
  intro s s' v'
  let v : Value := .map [(.text "a", .int 7), (.text "b", .map [(.text "y", .int 9)])]
  let ρ : Renaming := .node (Equiv.swap "a" "b") fun _ _ => Equiv.swap "x" "y"
  have hsound : s.all isSound := by decide
  have hu8 : Renames u8 u8 := .integer .w8 false
  have hunit : Renames unit unit := .record rfl .nil
  have hrenames : Renames s s' :=
    .record (by decide) (.cons hu8 (.cons
      (.option (.union (by decide) (.cons hunit (.cons hu8 .nil)))) .nil))
  have hρ : s.rename ρ = s' := rfl
  have hv : renameValue ρ s v = v' := rfl
  obtain ⟨b, hb⟩ := Blueprint.exists_build hsound
  obtain ⟨hwritten, hread⟩ := (renamed_same_wire b s s' hb hrenames).2.2 ρ hρ
  refine ⟨⟨b, hb⟩, hrenames, ?_, ?_, ?_⟩
  · rw [← hv]
    exact (hwritten v [7, 1, 1, 9]).mpr rfl
  · obtain ⟨w, n, h, h'⟩ | ⟨x, x', h, -⟩ := hread [7, 1, 1, 9]
    · cases h
      exact h'
    · cases h
  · obtain ⟨w, n, h, -⟩ | ⟨x, x', h, h', hx⟩ := hread [7, 1, 2]
    · cases h
    · cases h
      exact ⟨x', h', hx.symm⟩

end Schema

end LedgerWire
