import LedgerWire.Proofs.Schema.Plain

/-!
# The order of keys

The order of the entries of a mapping does not count when a value is written: values that are
`Value.Reordered` give the same bytes, or the same error with the same names in it. What is read has the
entries of its mappings in the order of the schema, which is `Schema.InOrder`.
-/

namespace LedgerWire

/-! ### Sorted texts -/

namespace Text

theorem precedes_cons {c d : CodePoint} {s t : Text} :
    precedes (c :: s) (d :: t) ↔ c.val < d.val ∨ c = d ∧ precedes s t := by
  simp [precedes]

theorem precedes_trans {s t u : Text} (hst : precedes s t) (htu : precedes t u) : precedes s u := by
  induction s generalizing t u with
  | nil => rfl
  | cons c s ih =>
    cases t with
    | nil => cases hst
    | cons d t =>
      cases u with
      | nil => cases htu
      | cons e u =>
        rw [precedes_cons] at hst htu ⊢
        rcases hst with hcd | ⟨rfl, hst⟩
        · rcases htu with hde | ⟨rfl, -⟩
          · exact .inl (hcd.trans hde)
          · exact .inl hcd
        · rcases htu with hde | ⟨rfl, htu⟩
          · exact .inl hde
          · exact .inr ⟨rfl, ih hst htu⟩

theorem precedes_total (s t : Text) : precedes s t ∨ precedes t s := by
  induction s generalizing t with
  | nil => exact .inl rfl
  | cons c s ih =>
    cases t with
    | nil => exact .inr rfl
    | cons d t =>
      rw [precedes_cons, precedes_cons]
      rcases Nat.lt_trichotomy c.val d.val with h | h | h
      · exact .inl (.inl h)
      · obtain rfl : c = d := Fin.ext h
        exact (ih t).imp (fun h => .inr ⟨rfl, h⟩) fun h => .inr ⟨rfl, h⟩
      · exact .inr (.inl h)

theorem precedes_antisymm {s t : Text} (hst : precedes s t) (hts : precedes t s) : s = t := by
  induction s generalizing t with
  | nil =>
    cases t with
    | nil => rfl
    | cons d t => cases hts
  | cons c s ih =>
    cases t with
    | nil => cases hst
    | cons d t =>
      rw [precedes_cons] at hst hts
      rcases hst with h | ⟨rfl, hst⟩
      · rcases hts with h' | ⟨rfl, -⟩
        · omega
        · omega
      · rcases hts with h' | ⟨-, hts⟩
        · omega
        · rw [ih hst hts]

/-- The order that texts come in does not show in the sorted list. -/
theorem sorted_of_perm {texts texts' : List Text} (h : texts.Perm texts') :
    sorted texts = sorted texts' := by
  have htrans (s t u : Text) (hst : precedes s t) (htu : precedes t u) : precedes s u :=
    precedes_trans hst htu
  have htotal (s t : Text) : (precedes s t || precedes t s) = true :=
    (Bool.or_eq_true _ _).mpr (precedes_total s t)
  have hsorted (texts : List Text) : (sorted texts).Pairwise fun s t => precedes s t :=
    List.pairwise_mergeSort htrans htotal texts
  have hperm : (sorted texts).Perm (sorted texts') :=
    (List.mergeSort_perm texts _).trans (h.trans (List.mergeSort_perm texts' _).symm)
  exact hperm.eq_of_pairwise (fun s t _ _ => precedes_antisymm) (hsorted texts) (hsorted texts')

end Text

/-! ### The value at a name -/

namespace Entries

/-- No text is the key of two entries. -/
def NamesOnce (entries : Entries) : Prop :=
  entries.Pairwise fun e e' => ∀ t : Text, e.1 = .text t → e'.1 ≠ .text t

theorem NamesOnce.of_perm {entries entries' : Entries} (hn : NamesOnce entries)
    (h : entries.Perm entries') : NamesOnce entries' :=
  (h.pairwise_iff fun hne t h' h => hne t h h').mp hn

theorem NamesOnce.of_nodup {entries : Entries} (h : (entries.map (·.1)).Nodup) :
    NamesOnce entries :=
  (List.pairwise_map.mp h).imp fun hne _ h h' => hne (h.trans h'.symm)

/-- Where no name stands twice, the order of entries does not count. -/
theorem field?_of_perm {entries entries' : Entries} (h : entries.Perm entries')
    (hn : NamesOnce entries) (name : Text) : entries.field? name = entries'.field? name := by
  induction h with
  | nil => rfl
  | cons e h ih =>
    obtain ⟨key, v⟩ := e
    by_cases hk : key = .text name
    · subst hk
      simp
    · rw [field?_cons_of_ne hk, field?_cons_of_ne hk, ih (List.pairwise_cons.mp hn).2]
  | swap e e' entries =>
    obtain ⟨key, v⟩ := e
    obtain ⟨key', v'⟩ := e'
    have hne := (List.pairwise_cons.mp hn).1 (key, v) List.mem_cons_self name
    by_cases hk' : key' = .text name
    · have hk : key ≠ .text name := hne hk'
      subst hk'
      simp [field?_cons_of_ne hk]
    · rw [field?_cons_of_ne hk']
      by_cases hk : key = .text name
      · subst hk
        simp
      · rw [field?_cons_of_ne hk, field?_cons_of_ne hk, field?_cons_of_ne hk']
  | trans h h' ih ih' => exact (ih hn).trans (ih' (hn.of_perm h))

end Entries

namespace Value

/-- In no mapping of the value a text is the key of two entries. -/
inductive NamesOnce : Value → Prop
  | single {v : Value} (list : v.kind ≠ .list) (map : v.kind ≠ .map) : NamesOnce v
  | list {items : List Value} (each : ∀ item ∈ items, NamesOnce item) : NamesOnce (.list items)
  | map {entries : List (Value × Value)} (names : Entries.NamesOnce entries)
    (each : ∀ e ∈ entries, NamesOnce e.2) : NamesOnce (.map entries)

/-- The same value up to the order of entries, and no name stands twice in it. -/
def Shuffled (v w : Value) : Prop := v.NamesOnce ∧ Reordered v w

variable {v w : Value}

theorem NamesOnce.items {items : List Value} (h : NamesOnce (.list items)) :
    ∀ item ∈ items, item.NamesOnce := by
  cases h with
  | single list => exact absurd rfl list
  | list each => exact each

theorem NamesOnce.entries {entries : List (Value × Value)} (h : NamesOnce (.map entries)) :
    Entries.NamesOnce entries ∧ ∀ e ∈ entries, e.2.NamesOnce := by
  cases h with
  | single _ map => exact absurd rfl map
  | map names each => exact ⟨names, each⟩

theorem Reordered.toByte_eq (h : Reordered v w) : v.toByte = w.toByte := by
  cases h <;> rfl

theorem ReorderedItems.toByteItems_eq {items items' : List Value} (h : ReorderedItems items items') :
    toByteItems items = toByteItems items' := by
  induction items generalizing items' with
  | nil =>
    cases h
    rfl
  | cons item items ih =>
    cases h with
    | cons head tail => rw [toByteItems, toByteItems, head.toByte_eq, ih tail]

theorem ReorderedItems.length_eq {items items' : List Value} (h : ReorderedItems items items') :
    items.length = items'.length := by
  induction items generalizing items' with
  | nil =>
    cases h
    rfl
  | cons item items ih =>
    cases h with
    | cons head tail => exact congrArg (· + 1) (ih tail)

theorem ReorderedEntries.keys_eq {entries entries' : List (Value × Value)}
    (h : ReorderedEntries entries entries') : entries.map (·.1) = entries'.map (·.1) := by
  induction entries generalizing entries' with
  | nil =>
    cases h
    rfl
  | cons e entries ih =>
    cases h with
    | cons head tail => exact congrArg (List.cons _) (ih tail)

theorem ReorderedEntries.field? {entries entries' : List (Value × Value)}
    (h : ReorderedEntries entries entries') (hn : ∀ e ∈ entries, e.2.NamesOnce) (name : Text) :
    Option.Rel Shuffled (Entries.field? name entries) (Entries.field? name entries') := by
  induction entries generalizing entries' with
  | nil =>
    cases h
    exact .none
  | cons e entries ih =>
    obtain ⟨hv, hentries⟩ := List.forall_mem_cons.mp hn
    cases h with
    | @cons key v w _ entries' head tail =>
      by_cases hk : key = .text name
      · subst hk
        rw [Entries.field?_cons_self, Entries.field?_cons_self]
        exact .some ⟨hv, head⟩
      · rw [Entries.field?_cons_of_ne hk, Entries.field?_cons_of_ne hk]
        exact ih tail hentries

end Value

namespace Schema

open Value

variable {s inner : Schema} {fields variants : List (Text × Schema)} {v w : Value}

/-! ### What is written -/

theorem encodeItems_of_reordered {items items' : List Value} (h : ReorderedItems items items')
    (hn : ∀ item ∈ items, item.NamesOnce) (ih : ∀ v w, Shuffled v w → encode s v = encode s w)
    (index : Nat) : encodeItems (encode s) index items = encodeItems (encode s) index items' := by
  induction items generalizing items' index with
  | nil =>
    cases h
    rfl
  | cons item items ihi =>
    obtain ⟨hitem, hitems⟩ := List.forall_mem_cons.mp hn
    cases h with
    | cons head tail =>
      rw [encodeItems, encodeItems, ih _ _ ⟨hitem, head⟩, ihi tail hitems]

/-- The check compares the keys as a set, and lists those that are amiss in their own order. -/
theorem checkFields_of_perm {entries entries' : Entries}
    (hkeys : (entries.map (·.1)).Perm (entries'.map (·.1)))
    (hfield : ∀ name, (entries.field? name).isNone = (entries'.field? name).isNone) :
    checkFields fields entries = checkFields fields entries' := by
  have hmissing : ((fields.map (·.1)).filter fun name => (entries.field? name).isNone) =
      (fields.map (·.1)).filter fun name => (entries'.field? name).isNone :=
    List.filter_congr fun name _ => hfield name
  have hlength : entries.length = entries'.length := by simpa using hkeys.length_eq
  unfold checkFields
  dsimp only
  rw [hmissing, hlength, (hkeys.filter _).isEmpty_eq,
    Text.sorted_of_perm ((hkeys.filter _).map Value.display)]

theorem encodeFields_of_reordered {entries entries' : Entries}
    (hfield : ∀ name, Option.Rel Shuffled (entries.field? name) (entries'.field? name))
    (ih : ∀ f ∈ fields, ∀ v w, Shuffled v w → encode f.2 v = encode f.2 w) :
    encodeFields fields entries = encodeFields fields entries' := by
  induction fields with
  | nil => rfl
  | cons f fields ihf =>
    obtain ⟨name, s⟩ := f
    obtain ⟨hs, hfields⟩ := List.forall_mem_cons.mp ih
    rw [encodeFields, encodeFields, ihf hfields]
    generalize entries.field? name = found, entries'.field? name = found', hfield name = h
    cases h with
    | none => rfl
    | some h => simp only [hs _ _ h]

theorem encodeVariant_of_reordered (h : Shuffled v w)
    (ih : ∀ f ∈ variants, ∀ v w, Shuffled v w → encode f.2 v = encode f.2 w) (name : Text)
    (index : Nat) : encodeVariant variants name v index = encodeVariant variants name w index := by
  induction variants generalizing index with
  | nil => rfl
  | cons f variants ihv =>
    obtain ⟨n, s⟩ := f
    obtain ⟨hs, hvariants⟩ := List.forall_mem_cons.mp ih
    rw [encodeVariant, encodeVariant, hs v w h, ihv hvariants]

theorem encode_record_of_reordered {entries mid entries' : Entries} (hperm : entries.Perm mid)
    (each : ReorderedEntries mid entries') (hn : NamesOnce (.map entries))
    (ih : ∀ f ∈ fields, ∀ v w, Shuffled v w → encode f.2 v = encode f.2 w) :
    encode (.record fields) (.map entries) = encode (.record fields) (.map entries') := by
  obtain ⟨hnames, hvalues⟩ := hn.entries
  have hfield (name : Text) :
      Option.Rel Shuffled (entries.field? name) (entries'.field? name) := by
    rw [Entries.field?_of_perm hperm hnames]
    exact each.field? (fun e he => hvalues e (hperm.mem_iff.mpr he)) name
  have hnone (name : Text) : (entries.field? name).isNone = (entries'.field? name).isNone := by
    generalize entries.field? name = found, entries'.field? name = found', hfield name = h
    cases h <;> rfl
  have hkeys : (entries.map (·.1)).Perm (entries'.map (·.1)) := by
    rw [← each.keys_eq]
    exact hperm.map _
  rw [encode, encode, checkFields_of_perm hkeys hnone, encodeFields_of_reordered hfield ih]

theorem encode_union_of_reordered {entries mid entries' : Entries} (hperm : entries.Perm mid)
    (each : ReorderedEntries mid entries') (hn : NamesOnce (.map entries))
    (ih : ∀ f ∈ variants, ∀ v w, Shuffled v w → encode f.2 v = encode f.2 w) :
    encode (.union variants) (.map entries) = encode (.union variants) (.map entries') := by
  rcases entries with _ | ⟨⟨key, v⟩, _ | ⟨e, entries⟩⟩
  · obtain rfl := List.nil_perm.mp hperm
    cases each
    rfl
  · -- A single entry has no other order.
    obtain rfl := List.singleton_perm.mp hperm
    cases each with
    | cons head tail =>
      cases tail
      have hshuffled := And.intro (hn.entries.2 _ List.mem_cons_self) head
      cases key with
      | text t => rw [encode, encode, encodeVariant_of_reordered hshuffled ih]
      | _ => rfl
  · have hlength : entries'.length = entries.length + 2 := by
      have hkeys := congrArg List.length each.keys_eq
      rw [List.length_map, List.length_map] at hkeys
      rw [← hkeys, ← hperm.length_eq]
      rfl
    rcases entries' with _ | ⟨e', _ | ⟨e'', entries'⟩⟩
    · cases hlength
    · cases hlength
    · rfl

/-- Values that differ in the order of entries only are written alike, or refused alike. -/
theorem encode_of_reordered (h : Shuffled v w) : encode s v = encode s w := by
  obtain ⟨hn, h⟩ := h
  induction s generalizing v w with
  | option inner ih =>
    have hinner := ih hn h
    cases h with
    | refl => rfl
    | list each => exact congrArg (Except.map _) hinner
    | map perm each => exact congrArg (Except.map _) hinner
  | bytes =>
    cases h with
    | refl => rfl
    | list each => simp only [encode, encodeBytes, bytesFor, each.toByteItems_eq]
    | map perm each => rfl
  | fixedBytes length =>
    cases h with
    | refl => rfl
    | list each => simp only [encode, encodeFixedBytes, bytesFor, each.toByteItems_eq]
    | map perm each => rfl
  | vec inner ih =>
    cases h with
    | refl => rfl
    | list each =>
      rw [encode, encode, each.length_eq,
        encodeItems_of_reordered each hn.items fun v w h => ih h.1 h.2]
    | map perm each => rfl
  | array inner length ih =>
    cases h with
    | refl => rfl
    | list each =>
      rw [encode, encode, each.length_eq,
        encodeItems_of_reordered each hn.items fun v w h => ih h.1 h.2]
    | map perm each => rfl
  | record fields ih =>
    cases h with
    | refl => rfl
    | list each => rfl
    | map perm each =>
      exact encode_record_of_reordered perm each hn fun f hf v w h => ih f hf h.1 h.2
  | union variants ih =>
    cases h with
    | refl => rfl
    | list each => rfl
    | map perm each =>
      exact encode_union_of_reordered perm each hn fun f hf v w h => ih f hf h.1 h.2
  | _ => cases h <;> rfl

/-! ### What is read -/

/-- The kind of the values of a schema without parts. -/
def singleKind? : Schema → Option Kind
  | .integer _ _ => some .int
  | .bool => some .bool
  | .text => some .text
  | .bytes => some .bytes
  | .fixedBytes _ => some .bytes
  | _ => none

/-- A value of the schema, and every mapping in it lists its keys in the order of the schema. -/
inductive InOrder : Schema → Value → Prop
  | single {s : Schema} {v : Value} (kind : s.singleKind? = some v.kind) : InOrder s v
  | none (inner : Schema) : InOrder (.option inner) .none
  | some {inner : Schema} {v : Value} (payload : InOrder inner v) : InOrder (.option inner) v
  | vec {inner : Schema} {items : List Value} (each : ∀ item ∈ items, InOrder inner item) :
    InOrder (.vec inner) (.list items)
  | array {inner : Schema} {items : List Value} (each : ∀ item ∈ items, InOrder inner item) :
    InOrder (.array inner items.length) (.list items)
  | record {fields : List (Text × Schema)} {entries : List (Value × Value)}
    (keys : entries.map (·.1) = fields.map fun f => .text f.1)
    (each : ∀ p ∈ fields.zip entries, InOrder p.1.2 p.2.2) : InOrder (.record fields) (.map entries)
  | union {variants : List (Text × Schema)} {name : Text} {s : Schema} {payload : Value}
    (variant : (name, s) ∈ variants) (part : InOrder s payload) :
    InOrder (.union variants) (.map [(.text name, payload)])

theorem inOrder_of_readItems {count : Nat} {items : List Value} {c c' : Cursor}
    (h : readItems (read inner) count c = .ok (items, c'))
    (ih : ∀ v c c', read inner c = .ok (v, c') → InOrder inner v) :
    items.length = count ∧ ∀ item ∈ items, InOrder inner item := by
  induction count generalizing items c with
  | zero =>
    obtain ⟨rfl, -⟩ := readItems_zero.mp h
    exact ⟨rfl, nofun⟩
  | succ count ihc =>
    obtain ⟨item, c₁, rest, hitem, hrest, rfl⟩ := readItems_succ.mp h
    obtain ⟨hlength, heach⟩ := ihc hrest
    exact ⟨congrArg (· + 1) hlength, List.forall_mem_cons.mpr ⟨ih item c c₁ hitem, heach⟩⟩

theorem inOrder_of_readFields {entries : Entries} {c c' : Cursor}
    (h : readFields fields c = .ok (entries, c'))
    (ih : ∀ f ∈ fields, ∀ v c c', read f.2 c = .ok (v, c') → InOrder f.2 v) :
    (entries.map (·.1) = fields.map fun f => .text f.1) ∧
      ∀ p ∈ fields.zip entries, InOrder p.1.2 p.2.2 := by
  induction fields generalizing entries c with
  | nil =>
    obtain ⟨rfl, -⟩ := readFields_nil.mp h
    exact ⟨rfl, nofun⟩
  | cons f fields ihf =>
    obtain ⟨hf, hfields⟩ := List.forall_mem_cons.mp ih
    obtain ⟨v, c₁, rest, hv, hrest, rfl⟩ := readFields_cons.mp h
    obtain ⟨hkeys, heach⟩ := ihf hrest hfields
    exact ⟨congrArg (List.cons _) hkeys, List.forall_mem_cons.mpr ⟨hf v c c₁ hv, heach⟩⟩

theorem inOrder_of_read {c c' : Cursor} (h : read s c = .ok (v, c')) : InOrder s v := by
  induction s generalizing v c c' with
  | integer width signed =>
    obtain ⟨raw, -, rfl⟩ := read_integer.mp h
    exact .single rfl
  | floatInteger width signed => exact absurd h read_floatInteger
  | bool =>
    obtain ⟨b, -, -, rfl⟩ := read_bool.mp h
    exact .single rfl
  | text =>
    obtain ⟨n, c₁, raw, t, -, -, -, rfl⟩ := read_text.mp h
    exact .single rfl
  | bytes =>
    obtain ⟨n, c₁, raw, -, -, rfl⟩ := read_bytes.mp h
    exact .single rfl
  | fixedBytes length =>
    obtain ⟨raw, -, rfl⟩ := read_fixedBytes.mp h
    exact .single rfl
  | option inner ih =>
    obtain ⟨-, rfl⟩ | ⟨c₁, -, hpayload⟩ := read_option.mp h
    · exact .none inner
    · exact .some (ih hpayload)
  | vec inner ih =>
    obtain ⟨count, c₁, items, -, -, hitems, rfl⟩ := read_vec.mp h
    exact .vec (inOrder_of_readItems hitems fun v c c' => ih).2
  | array inner length ih =>
    obtain ⟨items, hitems, rfl⟩ := read_array.mp h
    obtain ⟨rfl, heach⟩ := inOrder_of_readItems hitems fun v c c' => ih
    exact .array heach
  | record fields ih =>
    obtain ⟨entries, hentries, rfl⟩ := read_record.mp h
    obtain ⟨hkeys, heach⟩ := inOrder_of_readFields hentries fun f hf v c c' => ih f hf
    exact .record hkeys heach
  | union variants ih =>
    obtain ⟨tag, c₁, name, t, payload, -, hvariant, hpayload, rfl⟩ := read_union.mp h
    have hmem := List.mem_of_getElem? hvariant
    exact .union hmem (ih _ hmem hpayload)

/-- The order of keys does not count when a value is written, in bytes or in errors, and is that of the
schema when a value is read. -/
theorem key_order_of_schema (s : Schema) :
    (∀ v w, v.NamesOnce → Reordered v w → s.encode v = s.encode w) ∧
      ∀ data offset v n, s.decodeAt data offset = .ok (v, n) → InOrder s v := by
  refine ⟨fun v w hn h => encode_of_reordered ⟨hn, h⟩, fun data offset v n h => ?_⟩
  obtain ⟨⟨v', c⟩, hread, heq⟩ := map_eq_ok.mp h
  cases heq
  exact inOrder_of_read hread

/-- A record in a record, with two entries in both orders. A value that fits is written in the same
bytes, one that does not fit is refused for the same names, and the bytes are read in order. -/
theorem key_order_of_schema_nested :
    let s : Schema := record [("at", record [("x", u8), ("y", u8)])]
    let outer (entries : Entries) : Value := .map [(.text "at", .map entries)]
    let x : Value × Value := (.text "x", .int 1)
    let y : Value × Value := (.text "y", .int 2)
    let z : Value × Value := (.text "z", .int 3)
    (outer [x, y]).NamesOnce ∧ Reordered (outer [x, y]) (outer [y, x]) ∧
      s.encode (outer [y, x]) = .ok [1, 2] ∧
      s.encode (outer [z, x]) = .error (.mismatch [.name "at"] (.fields ["y"] ["z"])) ∧
      InOrder s (outer [x, y]) := by
  intro s outer x y z
  have hnames (e : Value × Value) (he : Value.text "x" ≠ e.1) (hv : e.2.NamesOnce) :
      (outer [x, e]).NamesOnce := by
    refine .map (List.pairwise_singleton _ _) (List.forall_mem_singleton.mpr ?_)
    refine .map (.of_nodup (by simpa using he)) ?_
    exact List.forall_mem_cons.mpr ⟨.single nofun nofun, List.forall_mem_singleton.mpr hv⟩
  have hreordered (e : Value × Value) : Reordered (outer [x, e]) (outer [e, x]) :=
    .map (.refl _) (.cons (.map (.swap e x []) (.cons (.refl _) (.cons (.refl _) .nil))) .nil)
  have hy := hnames y (fun h => absurd (Value.text.inj h) (by decide)) (.single nofun nofun)
  have hz := hnames z (fun h => absurd (Value.text.inj h) (by decide)) (.single nofun nofun)
  have hsorted (t : Text) : Text.sorted [t] = [t] := List.mergeSort_singleton t
  have hrefused : s.encode (outer [x, z]) = .error (.mismatch [.name "at"] (.fields ["y"] ["z"])) := by
    rw [← hsorted "y", ← hsorted "z"]
    rfl
  obtain ⟨hwritten, hread⟩ := key_order_of_schema s
  exact ⟨hy, hreordered y, (hwritten _ _ hy (hreordered y)).symm.trans rfl,
    (hwritten _ _ hz (hreordered z)).symm.trans hrefused, hread [1, 2] 0 _ 2 rfl⟩

end Schema

end LedgerWire
