import LedgerWire.Proofs.Schema.Acceptance

/-!
# Steps into a value

A value that is not written is refused by one node of its schema, for one part of the value.
`Schema.ownCheck` is what a node finds wrong before it looks at the parts; `Schema.Enters` is a step
into a part, with all that is written before it accepted, and `Schema.Reaches` a way of such steps. The
error of a value is the own error of the node at the end of such a way, and the way is its path. Only
the fault of an integer of a floating-point width goes without a path.
-/

namespace LedgerWire

/-- The error seen from the beginning of a path. -/
def EncodeError.along (path : List Segment) (x : EncodeError) : EncodeError :=
  path.foldr EncodeError.within x

@[simp] theorem EncodeError.along_append (path later : List Segment) (x : EncodeError) :
    x.along (path ++ later) = (x.along later).along path := List.foldr_append

@[simp] theorem EncodeError.along_mismatch (path : List Segment) (misfit : Misfit) :
    (EncodeError.mismatch [] misfit).along path = .mismatch path misfit := by
  induction path with
  | nil => rfl
  | cons segment path ih =>
    show ((EncodeError.mismatch [] misfit).along path).within segment = _
    rw [ih]
    rfl

@[simp] theorem EncodeError.along_floatWidth (path : List Segment) :
    EncodeError.floatWidth.along path = .floatWidth := by
  induction path with
  | nil => rfl
  | cons segment path ih =>
    show (EncodeError.floatWidth.along path).within segment = _
    rw [ih]
    rfl

namespace Schema

/-! ### Nodes and steps -/

/-- What a node checks on its own, before it enters any part. -/
def ownCheck : Schema → Value → Except EncodeError Unit
  | .integer w signed, v => (encodeInteger w signed v).map fun _ => ()
  | .floatInteger w signed, v => (encodeFloatInteger w signed v).map fun _ => ()
  | .bool, .bool _ => .ok ()
  | .bool, v => misfit (.bool v.kind)
  | .text, v => (encodeText v).map fun _ => ()
  | .bytes, v => (encodeBytes v).map fun _ => ()
  | .fixedBytes length, v => (encodeFixedBytes length v).map fun _ => ()
  | .option _, _ => .ok ()
  | .vec _, .list items => (encodeLength items.length).map fun _ => ()
  | .vec inner, v => misfit (.list (describe (.vec inner)) v.kind)
  | .array inner length, .list items =>
    if items.length = length then .ok ()
    else misfit (.itemCount (describe (.array inner length)) length items.length)
  | .array inner length, v => misfit (.list (describe (.array inner length)) v.kind)
  | .record fields, .map entries => checkFields fields entries
  | .record _, v => misfit (.record v.kind)
  | .union variants, .map [(name, _)] =>
    match name with
    | .text t =>
      if variants.any (·.1 == t) then .ok ()
      else misfit (.variant (describe (.union variants)) name)
    | _ => misfit (.variant (describe (.union variants)) name)
  | .union variants, _ => misfit (.union (describe (.union variants)))

/-- The node passes its own check and goes on to a part; what it writes before that part is accepted. -/
inductive Enters : Schema → Value → Option Segment → Schema → Value → Prop
  | option {inner : Schema} {v : Value} (given : v ≠ .none) :
    Enters (.option inner) v none inner v
  | vec {inner : Schema} {before after : List Value} {item : Value}
    (own : ownCheck (.vec inner) (.list (before ++ item :: after)) = .ok ())
    (earlier : ∀ x ∈ before, Accepts inner x) :
    Enters (.vec inner) (.list (before ++ item :: after)) (some (.item before.length)) inner item
  | array {inner : Schema} {length : Nat} {before after : List Value} {item : Value}
    (own : ownCheck (.array inner length) (.list (before ++ item :: after)) = .ok ())
    (earlier : ∀ x ∈ before, Accepts inner x) :
    Enters (.array inner length) (.list (before ++ item :: after)) (some (.item before.length))
      inner item
  | record {before later : List (Text × Schema)} {f : Text × Schema} {entries : Entries} {v : Value}
    (own : ownCheck (.record (before ++ f :: later)) (.map entries) = .ok ())
    (value : entries.field? f.1 = some v)
    (earlier : ∀ g ∈ before, ∃ u, entries.field? g.1 = some u ∧ Accepts g.2 u) :
    Enters (.record (before ++ f :: later)) (.map entries) (some (.name f.1)) f.2 v
  | union {variants : List (Text × Schema)} {name : Text} {s : Schema} {payload : Value}
    (variant : (name, s) ∈ variants) :
    Enters (.union variants) (.map [(.text name, payload)]) (some (.name name)) s payload

/-- Some steps, one after the other, and the segments of their path. -/
inductive Reaches : Schema → Value → List Segment → Schema → Value → Prop
  | here (s : Schema) (v : Value) : Reaches s v [] s v
  | step {s t u : Schema} {v w x : Value} {segment : Option Segment} {path : List Segment}
    (enters : Enters s v segment t w) (rest : Reaches t w path u x) :
    Reaches s v (segment.toList ++ path) u x

variable {s t inner : Schema} {fields variants : List (Text × Schema)} {v w : Value}
  {x : EncodeError} {path : List Segment} {segment : Option Segment}

/-! ### One step -/

theorem mapError_within_eq_error {segment : Segment} {r : Except EncodeError Bytes} :
    r.mapError (·.within segment) = .error x ↔ ∃ y, r = .error y ∧ y.along [segment] = x :=
  mapError_eq_error

/-- The first item that is not written makes the error of a list. -/
theorem encodeItems_eq_error {enc : Value → Except EncodeError Bytes} {index : Nat}
    {items : List Value} : encodeItems enc index items = .error x ↔
      ∃ before item after y, items = before ++ item :: after ∧ (∀ z ∈ before, ∃ bs, enc z = .ok bs) ∧
        enc item = .error y ∧ y.along [.item (index + before.length)] = x := by
  induction items generalizing index with
  | nil => simp [encodeItems]
  | cons item items ih =>
    simp only [encodeItems, bind_eq_error, mapError_within_eq_error, mapError_eq_ok, ih, pure_def,
      reduceCtorEq, and_false, exists_false, or_false]
    constructor
    · rintro (⟨y, hy, rfl⟩ | ⟨front, hf, before, item', after, y, rfl, hb, hy, rfl⟩)
      · exact ⟨[], item, items, y, rfl, List.forall_mem_nil _, hy, rfl⟩
      · refine ⟨item :: before, item', after, y, rfl, List.forall_mem_cons.mpr ⟨⟨front, hf⟩, hb⟩, hy, ?_⟩
        rw [List.length_cons, Nat.add_right_comm, Nat.add_assoc]
    · rintro ⟨_ | ⟨first, before⟩, item', after, y, heq, hb, hy, rfl⟩
      · cases heq
        exact .inl ⟨y, hy, rfl⟩
      · cases heq
        obtain ⟨⟨front, hf⟩, hb⟩ := List.forall_mem_cons.mp hb
        refine .inr ⟨front, hf, before, item', after, y, rfl, hb, hy, ?_⟩
        rw [List.length_cons, Nat.add_right_comm, Nat.add_assoc]

/-- The first field whose value is not written makes the error of a record. -/
theorem encodeFields_eq_error {entries : Entries}
    (hv : ∀ f ∈ fields, ∃ v, entries.field? f.1 = some v) :
    encodeFields fields entries = .error x ↔
      ∃ before f later v y, fields = before ++ f :: later ∧
        (∀ g ∈ before, ∃ u, entries.field? g.1 = some u ∧ Accepts g.2 u) ∧
        entries.field? f.1 = some v ∧ encode f.2 v = .error y ∧ y.along [.name f.1] = x := by
  induction fields with
  | nil => simp [encodeFields]
  | cons f fields ih =>
    obtain ⟨name, s⟩ := f
    obtain ⟨⟨v, hvf⟩, htail⟩ := List.forall_mem_cons.mp hv
    dsimp only at hvf
    rw [encodeFields]
    simp only [hvf, bind_eq_error, mapError_within_eq_error, mapError_eq_ok, ih htail, pure_def,
      reduceCtorEq, and_false, exists_false, or_false]
    constructor
    · rintro (⟨y, hy, rfl⟩ | ⟨front, hf, before, f, later, u, y, rfl, hb, hu, hy, rfl⟩)
      · exact ⟨[], (name, s), fields, v, y, rfl, List.forall_mem_nil _, hvf, hy, rfl⟩
      · exact ⟨(name, s) :: before, f, later, u, y, rfl,
          List.forall_mem_cons.mpr ⟨⟨v, hvf, front, hf⟩, hb⟩, hu, hy, rfl⟩
    · rintro ⟨_ | ⟨first, before⟩, f, later, u, y, heq, hb, hu, hy, rfl⟩
      · cases heq
        cases hvf.symm.trans hu
        exact .inl ⟨y, hy, rfl⟩
      · cases heq
        obtain ⟨⟨u', hu', front, hf⟩, hb⟩ := List.forall_mem_cons.mp hb
        cases hvf.symm.trans hu'
        exact .inr ⟨front, hf, before, f, later, u, y, rfl, hb, hu, hy, rfl⟩

/-- A step ends in an error of the part, as it is seen from the node. -/
def Fails (s : Schema) (v : Value) (x : EncodeError) : Prop :=
  ∃ segment t w y, Enters s v segment t w ∧ encode t w = .error y ∧ y.along segment.toList = x

theorem not_fails (h : ∀ segment t w, ¬ Enters s v segment t w) : ¬ Fails s v x :=
  fun ⟨segment, t, w, _, henters, _⟩ => h segment t w henters

/-- A value of the wrong sort is refused by the node, and no part is entered. -/
theorem refused_alone {reason : Misfit} (he : encode s v = misfit reason)
    (hc : ownCheck s v = misfit reason) (h : ∀ segment t w, ¬ Enters s v segment t w) :
    encode s v = .error x ↔ ownCheck s v = .error x ∨ Fails s v x := by
  rw [or_iff_left (not_fails h), he, hc]
  simp [misfit]

theorem encode_option_error : encode (.option inner) v = .error x ↔
    ownCheck (.option inner) v = .error x ∨ Fails (.option inner) v x := by
  constructor
  · intro h
    have hv : v ≠ .none := by
      rintro rfl
      cases h
    rw [encode_option_some hv, map_eq_error] at h
    exact .inr ⟨none, inner, v, x, .option hv, h, rfl⟩
  · rintro (h | ⟨_, _, _, y, henters, h, rfl⟩)
    · cases h
    · cases henters with
      | option given =>
        rw [encode_option_some given, map_eq_error]
        exact h

theorem encode_vec_error : encode (.vec inner) v = .error x ↔
    ownCheck (.vec inner) v = .error x ∨ Fails (.vec inner) v x := by
  cases v with
  | list items =>
    show (encodeLength items.length >>= fun length =>
      encodeItems (encode inner) 0 items >>= fun body => pure (length ++ body)) = .error x ↔
      (encodeLength items.length).map (fun _ => ()) = .error x ∨ _
    simp only [bind_eq_error, encodeItems_eq_error, pure_def, reduceCtorEq, and_false, exists_false,
      or_false, map_eq_error, Nat.zero_add]
    refine or_congr Iff.rfl ?_
    constructor
    · rintro ⟨length, hl, before, item, after, y, rfl, hb, hy, rfl⟩
      exact ⟨_, inner, item, y, .vec (map_eq_ok.mpr ⟨length, hl, rfl⟩) hb, hy, rfl⟩
    · rintro ⟨_, _, _, y, henters, hy, rfl⟩
      cases henters with
      | vec own earlier =>
        obtain ⟨length, hl, -⟩ := map_eq_ok.mp own
        exact ⟨length, hl, _, _, _, y, rfl, earlier, hy, rfl⟩
  | _ => exact refused_alone rfl rfl (by rintro _ _ _ ⟨⟩)

theorem encode_array_error {length : Nat} : encode (.array inner length) v = .error x ↔
    ownCheck (.array inner length) v = .error x ∨ Fails (.array inner length) v x := by
  cases v with
  | list items =>
    by_cases hl : items.length = length
    · have hc : ownCheck (.array inner length) (.list items) = .ok () := if_pos hl
      have he : encode (.array inner length) (.list items) = encodeItems (encode inner) 0 items :=
        if_pos hl
      rw [hc, he, encodeItems_eq_error]
      simp only [reduceCtorEq, false_or, Nat.zero_add]
      constructor
      · rintro ⟨before, item, after, y, rfl, hb, hy, rfl⟩
        exact ⟨_, inner, item, y, .array hc hb, hy, rfl⟩
      · rintro ⟨_, _, _, y, henters, hy, rfl⟩
        cases henters with
        | array own earlier => exact ⟨_, _, _, y, rfl, earlier, hy, rfl⟩
    · have hc : ownCheck (.array inner length) (.list items) = misfit _ := if_neg hl
      refine refused_alone (if_neg hl) hc fun segment t w henters => ?_
      cases henters with
      | array own earlier => cases hc.symm.trans own
  | _ => exact refused_alone rfl rfl nofun

theorem encode_record_error (hn : (fields.map (·.1)).Nodup) : encode (.record fields) v = .error x ↔
    ownCheck (.record fields) v = .error x ∨ Fails (.record fields) v x := by
  cases v with
  | map entries =>
    show (checkFields fields entries >>= fun _ => encodeFields fields entries) = .error x ↔
      checkFields fields entries = .error x ∨ _
    rw [bind_eq_error]
    refine or_congr Iff.rfl ?_
    constructor
    · rintro ⟨_, hk, h⟩
      have hkeys : HasKeys entries fields := (checkFields_eq_ok hn).mp hk
      obtain ⟨before, f, later, w, y, rfl, hb, hw, hy, rfl⟩ :=
        (encodeFields_eq_error fun _ => hkeys.exists_field).mp h
      exact ⟨_, f.2, w, y, .record hk hw hb, hy, rfl⟩
    · rintro ⟨_, _, _, y, henters, hy, rfl⟩
      cases henters with
      | record own value earlier =>
        have hkeys : HasKeys entries _ := (checkFields_eq_ok hn).mp own
        exact ⟨(), own, (encodeFields_eq_error fun _ => hkeys.exists_field).mpr
          ⟨_, _, _, _, y, rfl, earlier, value, hy, rfl⟩⟩
  | _ => exact refused_alone rfl rfl nofun

theorem encodeVariant_eq_none {name : Text} {payload : Value} {index : Nat} :
    encodeVariant variants name payload index = none ↔ ∀ f ∈ variants, f.1 ≠ name := by
  induction variants generalizing index with
  | nil => simp [encodeVariant]
  | cons f variants ih =>
    obtain ⟨n, s⟩ := f
    rw [encodeVariant, List.forall_mem_cons]
    by_cases h : n = name
    · simp [h]
    · simp [h, ih]

/-- A single entry under a text is written as the variant with that name, or there is none. -/
theorem encode_entry_error (hn : (variants.map (·.1)).Nodup) {name : Text} {payload : Value} :
    encode (.union variants) (.map [(.text name, payload)]) = .error x ↔
      ownCheck (.union variants) (.map [(.text name, payload)]) = .error x ∨
        Fails (.union variants) (.map [(.text name, payload)]) x := by
  have he : encode (.union variants) (.map [(.text name, payload)]) =
    (encodeVariant variants name payload 0).getD (misfit _) := rfl
  cases hr : encodeVariant variants name payload 0 with
  | none =>
    have hnone := encodeVariant_eq_none.mp hr
    rw [hr] at he
    refine refused_alone he (if_neg ?_) fun segment t w henters => ?_
    · simpa [List.any_eq_true] using fun s hmem => hnone (name, s) hmem rfl
    · cases henters with
      | union variant => exact hnone _ variant rfl
  | some r =>
    obtain ⟨index, s, hi, rfl⟩ := (encodeVariant_eq_some hn).mp hr
    have hmem := List.mem_of_getElem? hi
    have hc : ownCheck (.union variants) (.map [(.text name, payload)]) = .ok () :=
      if_pos (List.any_eq_true.mpr ⟨_, hmem, by simp⟩)
    rw [hc, he, hr, Option.getD_some, map_eq_error, mapError_within_eq_error]
    simp only [reduceCtorEq, false_or]
    constructor
    · rintro ⟨y, hy, rfl⟩
      exact ⟨_, s, payload, y, .union hmem, hy, rfl⟩
    · rintro ⟨_, _, _, y, henters, hy, rfl⟩
      cases henters with
      | union variant =>
        cases List.inj_on_of_nodup_map hn variant hmem rfl
        exact ⟨y, hy, rfl⟩

theorem encode_union_eq_error (hn : (variants.map (·.1)).Nodup) :
    encode (.union variants) v = .error x ↔
      ownCheck (.union variants) v = .error x ∨ Fails (.union variants) v x := by
  cases v with
  | map entries =>
    rcases entries with _ | ⟨⟨name, payload⟩, _ | ⟨_, _⟩⟩
    · exact refused_alone rfl rfl nofun
    · cases name with
      | text t => exact encode_entry_error hn
      | _ => exact refused_alone rfl rfl nofun
    · exact refused_alone rfl rfl nofun
  | _ => exact refused_alone rfl rfl nofun

/-- A value is refused by the own check of its node, or in a part of it. -/
theorem encode_eq_error (hs : s.all isSound) :
    encode s v = .error x ↔ ownCheck s v = .error x ∨ Fails s v x := by
  cases s with
  | option inner => exact encode_option_error
  | vec inner => exact encode_vec_error
  | array inner length => exact encode_array_error
  | record fields => exact encode_record_error (nodup_of_record hs)
  | union variants => exact encode_union_eq_error (nodup_of_union hs)
  | bool =>
    cases v with
    | bool b => exact iff_of_false nofun (not_or_intro nofun (not_fails (by nofun)))
    | _ => exact refused_alone rfl rfl nofun
  | _ => exact map_eq_error.symm.trans (or_iff_left (not_fails (by nofun))).symm

/-! ### The whole way -/

theorem Enters.sound (h : Enters s v segment t w) (hs : s.all isSound) : t.all isSound := by
  cases h with
  | option => exact all_option hs
  | vec => exact all_vec hs
  | array => exact all_array hs
  | record => exact all_record hs _ (by simp)
  | union variant => exact all_union hs _ variant

theorem Reaches.sound (h : Reaches s v path t w) (hs : s.all isSound) : t.all isSound := by
  induction h with
  | here => exact hs
  | step enters _ ih => exact ih (enters.sound hs)

/-- What holds of a schema if it holds of all that is entered from there, holds of every schema. -/
theorem induction_on_parts {motive : Schema → Prop}
    (step : ∀ s, (∀ v segment t w, Enters s v segment t w → motive t) → motive s) (s : Schema) :
    motive s := by
  induction s with
  | option inner ih =>
    refine step _ fun v segment t w h => ?_
    cases h with
    | option => exact ih
  | vec inner ih =>
    refine step _ fun v segment t w h => ?_
    cases h with
    | vec => exact ih
  | array inner length ih =>
    refine step _ fun v segment t w h => ?_
    cases h with
    | array => exact ih
  | record fields ih =>
    refine step _ fun v segment t w h => ?_
    cases h with
    | record => exact ih _ (by simp)
  | union variants ih =>
    refine step _ fun v segment t w h => ?_
    cases h with
    | union variant => exact ih _ variant
  | _ => exact step _ fun _ _ _ _ h => nomatch h

theorem exists_reaches (hs : s.all isSound) (h : encode s v = .error x) :
    ∃ path t w e, Reaches s v path t w ∧ ownCheck t w = .error e ∧ e.along path = x := by
  induction s using induction_on_parts generalizing v x with
  | step s ih =>
    rcases (encode_eq_error hs).mp h with h | ⟨segment, t, w, y, henters, hy, rfl⟩
    · exact ⟨[], s, v, x, .here s v, h, rfl⟩
    · obtain ⟨path, u, z, e, hr, hc, rfl⟩ := ih _ _ _ _ henters (henters.sound hs) hy
      exact ⟨_, u, z, e, .step henters hr, hc, e.along_append segment.toList path⟩

theorem encode_of_reaches (hs : s.all isSound) (h : Reaches s v path t w)
    (hc : ownCheck t w = .error x) : encode s v = .error (x.along path) := by
  induction h with
  | here => exact (encode_eq_error hs).mpr (.inl hc)
  | step enters _ ih =>
    exact (encode_eq_error hs).mpr (.inr ⟨_, _, _, _, enters, ih (enters.sound hs) hc,
      (x.along_append _ _).symm⟩)

/-- The error of a value is the own error of a node that the path leads to. -/
theorem encode_eq_error_iff (hs : s.all isSound) : encode s v = .error x ↔
    ∃ path t w e, Reaches s v path t w ∧ ownCheck t w = .error e ∧ e.along path = x := by
  constructor
  · exact exists_reaches hs
  · rintro ⟨path, t, w, e, hr, hc, rfl⟩
    exact encode_of_reaches hs hr hc

/-! ### Own errors -/

/-- If there is an error, the value as a whole does not fit. -/
def Bare {α : Type} (r : Except EncodeError α) : Prop :=
  ∀ x, r = .error x → ∃ reason, x = .mismatch [] reason

namespace Bare

variable {α β : Type} {r r' : Except EncodeError α}

theorem ok (a : α) : Bare (.ok a) := nofun

theorem misfit (reason : Misfit) : Bare (misfit reason : Except EncodeError α) := by
  rintro x ⟨⟩
  exact ⟨reason, rfl⟩

theorem bind {g : α → Except EncodeError β} (h : Bare r) (hg : ∀ a, Bare (g a)) :
    Bare (r >>= g) := by
  intro x hx
  rcases bind_eq_error.mp hx with hx | ⟨a, -, hx⟩
  · exact h x hx
  · exact hg a x hx

theorem map {g : α → β} (h : Bare r) : Bare (r.map g) := fun x hx => h x (map_eq_error.mp hx)

theorem ite {p : Prop} [Decidable p] (h : Bare r) (h' : Bare r') :
    Bare (if p then r else r') := by
  split
  · exact h
  · exact h'

theorem length (n : Nat) : Bare (encodeLength n) := ite (ok _) (misfit _)

theorem integer (width : Width) (signed : Bool) (v : Value) :
    Bare (encodeInteger width signed v) := by
  cases v with
  | int n => exact ite (ok _) (misfit _)
  | _ => exact misfit _

theorem text (v : Value) : Bare (encodeText v) := by
  unfold encodeText
  split
  · split
    · exact (length _).bind fun _ => ok _
    · exact misfit _
  · exact misfit _

theorem bytesFor (s : Schema) (v : Value) : Bare (bytesFor s v) := by
  unfold Schema.bytesFor
  split
  · exact ok _
  · split
    · exact ok _
    · exact misfit _
  · exact misfit _

theorem bytes (v : Value) : Bare (encodeBytes v) :=
  (bytesFor _ v).bind fun _ => (length _).bind fun _ => ok _

theorem fixedBytes (n : Nat) (v : Value) : Bare (encodeFixedBytes n v) :=
  (bytesFor _ v).bind fun _ => ite (ok _) (misfit _)

theorem checkFields (entries : Entries) : Bare (checkFields fields entries) :=
  ite (ok _) (misfit _)

end Bare

theorem bare_ownCheck (h : ∀ width signed, s ≠ .floatInteger width signed) :
    Bare (ownCheck s v) := by
  cases s with
  | integer width signed => exact (Bare.integer width signed v).map
  | floatInteger width signed => exact absurd rfl (h width signed)
  | bool =>
    cases v with
    | bool b => exact .ok ()
    | _ => exact .misfit _
  | text => exact (Bare.text v).map
  | bytes => exact (Bare.bytes v).map
  | fixedBytes length => exact (Bare.fixedBytes length v).map
  | option inner => exact .ok ()
  | vec inner =>
    cases v with
    | list items => exact (Bare.length _).map
    | _ => exact .misfit _
  | array inner length =>
    cases v with
    | list items => exact .ite (.ok _) (.misfit _)
    | _ => exact .misfit _
  | record fields =>
    cases v with
    | map entries => exact .checkFields entries
    | _ => exact .misfit _
  | union variants =>
    cases v with
    | map entries =>
      rcases entries with _ | ⟨⟨name, payload⟩, _ | ⟨_, _⟩⟩
      · exact .misfit _
      · cases name with
        | text t => exact .ite (.ok _) (.misfit _)
        | _ => exact .misfit _
      · exact .misfit _
    | _ => exact .misfit _

/-- A node blames the value as a whole, but for an integer of a floating-point width. -/
theorem ownCheck_error (h : ownCheck s v = .error x) :
    (∃ reason, x = .mismatch [] reason) ∨ x = .floatWidth ∧ ∃ w signed, s = .floatInteger w signed := by
  by_cases hs : ∃ w signed, s = .floatInteger w signed
  · obtain ⟨w, signed, rfl⟩ := hs
    have hencode : encodeFloatInteger w signed v = .error x := map_eq_error.mp h
    cases v with
    | int n =>
      rw [encodeFloatInteger] at hencode
      by_cases hn : (!signed && decide (n < 0)) = true
      · rw [if_pos hn] at hencode
        exact .inl (Bare.misfit _ x hencode)
      · rw [if_neg hn] at hencode
        cases hencode
        exact .inr ⟨rfl, w, signed, rfl⟩
    | _ => exact .inl (Bare.misfit _ x hencode)
  · exact .inl (bare_ownCheck (fun w signed heq => hs ⟨w, signed, heq⟩) x h)

end Schema

end LedgerWire
