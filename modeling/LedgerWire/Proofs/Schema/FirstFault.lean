import LedgerWire.Proofs.Schema.Safety

/-!
# The first fault

The message of a misfit names its place: the way to it, and what the schema there says of the part of
the value there. It is the first place at fault, in the order in which the value is written. The errors
of a schema all name a place unless an integer of a floating-point width can be met as a part, where
the fault goes without its path.
-/

namespace LedgerWire

namespace Schema

variable {s t : Schema} {v w : Value} {path : List Segment} {segment : Option Segment}

/-! ### Names of places -/

/-- The message of the error names a place: the way there, and what the schema there says of the part
of the value there, before it looks any further. -/
def NamesPlace (s : Schema) (v : Value) (x : EncodeError) : Prop :=
  ∃ path t w e, Reaches s v path t w ∧ ownCheck t w = .error e ∧ t.encode w = .error e ∧
    x.message = Text.join (path.map Segment.text) ++ e.message

/-- Every error names a place. -/
def NamesFirst (s : Schema) : Prop := ∀ v x, s.encode v = .error x → NamesPlace s v x

theorem message_along (path : List Segment) (reason : Misfit) :
    ((EncodeError.mismatch [] reason).along path).message =
      Text.join (path.map Segment.text) ++ (EncodeError.mismatch [] reason).message := by
  simp [EncodeError.message, Text.join]

theorem namesPlace_of_mismatch (hs : s.all isSound) {reason : Misfit}
    (h : s.encode v = .error (.mismatch path reason)) :
    NamesPlace s v (.mismatch path reason) := by
  obtain ⟨path', t, w, e, hr, hc, he⟩ := exists_reaches hs h
  obtain ⟨reason', rfl⟩ | ⟨rfl, -⟩ := ownCheck_error hc
  · rw [EncodeError.along_mismatch] at he
    cases he
    refine ⟨path, t, w, _, hr, hc, (encode_eq_error (hr.sound hs)).mpr (.inl hc), ?_⟩
    rw [← message_along, EncodeError.along_mismatch]
  · rw [EncodeError.along_floatWidth] at he
    cases he

/-- An integer of a floating-point width can be met as part of a value. -/
def meetsFloatBelow : Schema → Bool
  | .option inner => meetsFloatBelow inner
  | .vec inner => inner.meetsFloat
  | .array inner length => length != 0 && inner.meetsFloat
  | .record fields => meetsFloatIn fields
  | .union variants => meetsFloatIn variants
  | _ => false

theorem meetsFloat_of_below (h : s.meetsFloatBelow) : s.meetsFloat := by
  induction s with
  | option inner ih => exact ih h
  | vec inner ih => exact h
  | array inner length ih => exact h
  | record fields ih => exact h
  | union variants ih => exact h
  | _ => cases h

/-- A step that adds to the path goes on to a part. -/
theorem Enters.below (h : Enters s v segment t w) (hf : s.meetsFloatBelow = false) :
    segment = none ∧ t.meetsFloatBelow = false ∨ t.meetsFloat = false := by
  have hpart : s.meetsFloat = false → t.meetsFloat = false := h.meetsFloat
  cases h with
  | option => exact .inl ⟨rfl, hf⟩
  | _ => exact .inr (hpart hf)

/-- Where no integer of a floating-point width is met as a part, its fault is met without a path. -/
theorem path_of_floatWidth (hs : s.all isSound) (h : Reaches s v path t w)
    (hc : ownCheck t w = .error .floatWidth) (hf : s.meetsFloatBelow = false) : path = [] := by
  induction h with
  | here => rfl
  | step enters rest ih =>
    have ht := enters.sound hs
    rcases enters.below hf with ⟨rfl, hbelow⟩ | hnone
    · rw [ih ht hc hbelow]
      rfl
    · have := encode_of_reaches ht rest hc
      rw [EncodeError.along_floatWidth] at this
      exact absurd this (encode_error ht hnone)

theorem not_below_of_path (h : Reaches s v path t w) (hp : path = [])
    (hc : ownCheck t w = .error .floatWidth) : s.meetsFloatBelow = false := by
  induction h with
  | here s v =>
    obtain ⟨reason, hx⟩ | ⟨-, width, signed, rfl⟩ := ownCheck_error hc
    · cases hx
    · rfl
  | step enters rest ih =>
    cases enters with
    | option => exact ih hp hc
    | _ => cases hp

theorem path_of_message (h : EncodeError.floatWidth.message =
    Text.join (path.map Segment.text) ++ EncodeError.floatWidth.message) : path = [] := by
  have hjoin : Text.join (path.map Segment.text) = [] := by simpa using h
  cases path with
  | nil => rfl
  | cons segment path =>
    rw [List.map_cons, Text.join, List.flatten_cons, List.append_eq_nil_iff] at hjoin
    cases segment with
    | item index => simp [Segment.text, Text.join, Text.ofString] at hjoin
    | name n => simp [Segment.text, Text.join, Text.ofString] at hjoin

theorem namesFirst_of_below (hs : s.all isSound) (hf : s.meetsFloatBelow = false) :
    NamesFirst s := by
  intro v x h
  cases x with
  | mismatch path reason => exact namesPlace_of_mismatch hs h
  | floatWidth =>
    obtain ⟨path, t, w, e, hr, hc, he⟩ := exists_reaches hs h
    obtain ⟨reason, rfl⟩ | ⟨rfl, -⟩ := ownCheck_error hc
    · rw [EncodeError.along_mismatch] at he
      cases he
    · have hown := (encode_eq_error (hr.sound hs)).mpr (.inl hc)
      refine ⟨path, t, w, _, hr, hc, hown, ?_⟩
      rw [path_of_floatWidth hs hr hc hf]
      rfl

theorem below_of_namesFirst (hs : s.all isSound) (h : NamesFirst s) : s.meetsFloatBelow = false := by
  by_contra hf
  obtain ⟨v, hv⟩ := exists_fault hs (meetsFloat_of_below (by simpa using hf))
  obtain ⟨path, t, w, e, hr, hc, -, hm⟩ := h v _ hv
  obtain ⟨reason, rfl⟩ | ⟨rfl, -⟩ := ownCheck_error hc
  · cases (EncodeError.along_mismatch path reason ▸ encode_of_reaches hs hr hc).symm.trans hv
  · exact hf (not_below_of_path hr (path_of_message hm) hc)

/-- A schema that was built refuses a value for the first part at fault, always. Misfits are named by
the way to that part, and so are all errors, but where an integer of a floating-point width can be met
as a part. -/
theorem error_names_first_fault (b : Blueprint) (s : Schema) (h : b.build = .ok s) :
    (∀ v x, s.encode v = .error x ↔
      ∃ path t w e, Reaches s v path t w ∧ ownCheck t w = .error e ∧ e.along path = x) ∧
    (∀ v path reason, s.encode v = .error (.mismatch path reason) →
      NamesPlace s v (.mismatch path reason)) ∧
    (NamesFirst s ↔ s.meetsFloatBelow = false) ∧ (b.wholeWidths → NamesFirst s) := by
  have hs := Blueprint.sound_of_build h
  refine ⟨fun _ _ => encode_eq_error_iff hs, fun _ _ _ => namesPlace_of_mismatch hs,
    ⟨below_of_namesFirst hs, namesFirst_of_below hs⟩, fun hw => namesFirst_of_below hs ?_⟩
  by_contra hf
  have hmeets := meetsFloat_of_below (by simpa using hf)
  rw [meetsFloat_of_exact (Blueprint.exact_of_build hw h)] at hmeets
  cases hmeets

/-- The second item of a list in a record is out of range. -/
theorem error_names_first_fault_item :
    (Blueprint.record [(.text "ids", .vec (.integer (.int 8) (.bool false)))]).build =
        .ok (.record [("ids", .vec u8)]) ∧
      encode (.record [("ids", .vec u8)]) (.map [(.text "ids", .list [.int 1, .int 256])]) =
        .error (.mismatch [.name "ids", .item 1] (.range "u8" 256)) ∧
      NamesPlace (.record [("ids", .vec u8)]) (.map [(.text "ids", .list [.int 1, .int 256])])
        (.mismatch [.name "ids", .item 1] (.range "u8" 256)) :=
  have h := error_names_first_fault
    (.record [(.text "ids", .vec (.integer (.int 8) (.bool false)))]) _ rfl
  ⟨rfl, rfl, h.2.1 _ _ _ rfl⟩

/-- The item at fault is not named where its width was given as a floating-point number. -/
theorem float_item_not_named :
    (Blueprint.vec (.integer (.float (.ofNat 8)) (.bool true))).build =
        .ok (.vec (.floatInteger .w8 true)) ∧
      encode (.vec (.floatInteger .w8 true)) (.list [.int 1]) = .error .floatWidth ∧
      EncodeError.floatWidth.message = "unsupported operand type(s) for <<: 'int' and 'float'" ∧
      ¬ NamesFirst (.vec (.floatInteger .w8 true)) := by
  have hoffer := Blueprint.build_eq_ok.mp Blueprint.build_floatInteger
  have hbuild := Blueprint.build_eq_ok.mpr
    (Blueprint.offer_vec.mpr ⟨_, rfl, by decide +kernel, hoffer⟩)
  refine ⟨hbuild, rfl, rfl, fun h => ?_⟩
  have := below_of_namesFirst (Blueprint.sound_of_build hbuild) h
  cases this

end Schema

end LedgerWire
