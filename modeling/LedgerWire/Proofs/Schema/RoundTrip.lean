import LedgerWire.Proofs.Schema.Built
import LedgerWire.Proofs.Schema.Counts

/-!
# What is written is read back

`Schema.RoundTrips` says that every value comes back from its encoding, whatever stands after it: as
the plain value, up to the order of entries. It holds for just the schemas where the check of the
number of items lets every list through, and so wherever the widths were given as integers. The union
`misjudged` shows what a width that was given as a floating-point number can do.
-/

namespace LedgerWire

namespace Schema

open Reader Value

variable {s : Schema} {v : Value} {bs : Bytes}

/-- Every value that is written is read back, and what is read back is written in the same way. -/
def RoundTrips (s : Schema) : Prop :=
  ∀ v bs, s.encode v = .ok bs → ∃ n, Reordered (s.plain v) n ∧
    (∀ rest, s.decode (bs ++ rest) = .ok (n, bs.length)) ∧ s.encode n = .ok bs

theorem decode_eq_ok {data : Bytes} {n : Nat} :
    s.decode data = .ok (v, n) ↔ ∃ rest, s.read ⟨0, data⟩ = .ok (v, ⟨n, rest⟩) := by
  simp only [decode, decodeAt, List.drop_zero, map_eq_ok, Prod.mk.injEq]
  constructor
  · rintro ⟨⟨v', ⟨n', rest⟩⟩, h, rfl, rfl⟩
    exact ⟨rest, h⟩
  · rintro ⟨rest, h⟩
    exact ⟨(v, ⟨n, rest⟩), h, rfl, rfl⟩

theorem decode_of_takes {rest : Bytes} (h : Takes (read s) bs v rest) :
    s.decode (bs ++ rest) = .ok (v, bs.length) :=
  decode_eq_ok.mpr ⟨rest, by rw [h 0, Nat.zero_add]⟩

theorem Refused.decode_ne_ok {counts : Schema → Nat → Prop} (h : Refused counts s 0 v bs)
    (x : Value × Nat) : s.decode bs ≠ .ok x := by
  intro hx
  obtain ⟨rest, hread⟩ := decode_eq_ok.mp hx
  rw [← List.append_nil bs] at hread
  exact h.refused [] rfl 0 _ hread

theorem roundTrips_of_fits (hs : s.all isSound) (hf : Fits AnyCount s 0) : RoundTrips s := by
  intro v bs h
  obtain ⟨n, hr, hl⟩ := layout_of_encode hs h
  exact ⟨n, hr, fun rest => decode_of_takes (takes_of_layout hs hl hf (Nat.zero_le _)),
    encode_of_layout hs id hl⟩

theorem fits_of_roundTrips (hs : s.all isSound) (h : RoundTrips s) : Fits AnyCount s 0 := by
  by_contra hf
  obtain ⟨v, bs, hrefused⟩ := exists_refused hs hf
  obtain ⟨n, -, hdecode, -⟩ := h v bs hrefused.written
  have := hdecode []
  rw [List.append_nil] at this
  exact hrefused.decode_ne_ok _ this

/-- A schema that was built reads back what it writes just where every list is let through. -/
theorem roundTrips_iff_fits (b : Blueprint) (s : Schema) (h : b.build = .ok s) :
    (RoundTrips s ↔ Fits AnyCount s 0) ∧ (b.wholeWidths → RoundTrips s) := by
  have hs := Blueprint.sound_of_build h
  have hiff : RoundTrips s ↔ Fits AnyCount s 0 := ⟨fits_of_roundTrips hs, roundTrips_of_fits hs⟩
  exact ⟨hiff, fun hw => hiff.mpr (fits_of_exact hs (Blueprint.exact_of_build hw h) _ _)⟩

theorem roundTrips_integers :
    (Blueprint.vec (.integer (.int 64) (.bool true))).build = .ok (.vec (.integer .w64 true)) ∧
      RoundTrips (.vec (.integer .w64 true)) :=
  ⟨rfl, (roundTrips_iff_fits (.vec (.integer (.int 64) (.bool true))) _ rfl).2 rfl⟩

/-! ### A union that is misjudged -/

/-- A union with a variant that takes no bytes, whatever the items of its lists are. -/
def orNothing (item : Schema) : Schema :=
  .union [("a", u8), ("b", .array (.array item (10 ^ 308)) 0)]

/-- So many integers of 128.0 bits take more bytes than any floating-point number tells, and none of
such lists take a number of bytes that is no number. -/
def misjudged : Schema :=
  .union [("a", u8), ("b", .array (.array (.floatInteger .w128 false) (10 ^ 308)) 0)]

/-- The variant without bytes does not count, as it is not less than the other one. -/
theorem minSize_misjudged : misjudged.minSize = .ok (.int 2) := by
  decide +kernel

theorem encode_misjudged :
    encode (.vec misjudged) (.list [.map [(.text "b", .list [])]]) = .ok [1, 0, 0, 0, 1] := rfl

theorem mul_minSize_misjudged :
    misjudged.minSize.bind (Quantity.int (1 : Nat)).mul = .ok (.int (1 * 2)) := by
  rw [minSize_misjudged]
  rfl

/-- One byte is left for an item that is taken to need two. -/
theorem decode_vec_short (h : s.minSize = .ok (.int 2)) : decode (.vec s) [1, 0, 0, 0, 1] =
    .error (.truncatedItems (describe (.vec s)) 1) := by
  have hcount : Cursor.length ⟨0, [1, 0, 0, 0, 1]⟩ = .ok (1, ⟨4, [1]⟩) := rfl
  have hmul : s.minSize.bind (Quantity.int (1 : Nat)).mul = .ok (.int (1 * 2)) := by
    rw [h]
    rfl
  have hless : (Quantity.int ([1] : Bytes).length).less (.int (1 * 2)) = true := rfl
  unfold decode decodeAt
  rw [List.drop_zero, read_vec_refused hcount hmul hless]
  rfl

theorem decode_misjudged : decode (.vec misjudged) [1, 0, 0, 0, 1] =
    .error (.truncatedItems (describe (.vec misjudged)) 1) :=
  decode_vec_short minSize_misjudged

/-- One more byte makes the difference, though it is not read. -/
theorem decode_misjudged_spare : decode (.vec misjudged) [1, 0, 0, 0, 1, 255] =
    .ok (.list [.map [(.text "b", .list [])]], 5) :=
  decode_eq_ok.mpr ⟨[255], read_vec.mpr ⟨1, ⟨4, [1, 255]⟩, _, rfl,
    ⟨_, mul_minSize_misjudged, rfl⟩, rfl, rfl⟩⟩

end Schema

namespace Blueprint

open Schema

/-- The calls that build it. -/
def misjudged : Blueprint :=
  .union [(.text "a", .integer (.int 8) (.bool false)),
    (.text "b", .array (.array (.integer (.float (.ofNat 128)) (.bool false)) (.int (10 ^ 308)))
      (.int 0))]

theorem offer_floatInteger :
    (integer (.float (.ofNat 128)) (.bool false)).offer =
      .ok (.schema (.floatInteger .w128 false)) := by
  have hwidth : (Binary64.ofNat 128).toInt? = some 128 := by decide +kernel
  refine offer_integer.mpr (buildInteger_eq_ok.mpr ⟨.w128, false, rfl, .inr ⟨_, rfl, ?_, rfl⟩⟩)
  rw [hwidth]
  rfl

/-- The calls that build a union with a variant that takes no bytes. -/
def orNothing (item : Blueprint) : Blueprint :=
  .union [(.text "a", .integer (.int 8) (.bool false)),
    (.text "b", .array (.array item (.int (10 ^ 308))) (.int 0))]

theorem offer_orNothing {item : Blueprint} {s : Schema} (hitem : item.offer = .ok (.schema s))
    (hs : s.isSized) (hlist : (Schema.array s (10 ^ 308)).isSized) :
    (orNothing item).offer = .ok (.schema (Schema.orNothing s)) := by
  have hlength : Value.int (10 ^ 308) = .int (10 ^ 308 : Nat) := by
    simp only [Int.natCast_pow, Nat.cast_ofNat]
  refine offer_union.mpr ⟨_, rfl, rfl, .cons ⟨rfl, rfl⟩ (.cons ⟨rfl, ?_⟩ .nil)⟩
  refine offer_array.mpr ⟨_, 0, rfl, hlist, rfl, ?_⟩
  exact offer_array.mpr ⟨_, 10 ^ 308, rfl, hs, hlength, hitem⟩

theorem offer_misjudged : misjudged.offer = .ok (.schema Schema.misjudged) :=
  offer_orNothing offer_floatInteger (by decide +kernel) (by decide +kernel)

theorem build_misjudged : (vec misjudged).build = .ok (.vec Schema.misjudged) :=
  build_eq_ok.mpr (offer_vec.mpr ⟨_, rfl, by decide +kernel, offer_misjudged⟩)

/-- One item that takes one byte is written, and refused for the second byte that is missing. -/
theorem misjudged_not_read_back :
    (vec misjudged).build = .ok (.vec Schema.misjudged) ∧
      (Schema.vec Schema.misjudged).encode (.list [.map [(.text "b", .list [])]]) =
        .ok [1, 0, 0, 0, 1] ∧
      (Schema.vec Schema.misjudged).decode [1, 0, 0, 0, 1] =
        .error (.truncatedItems (describe (.vec Schema.misjudged)) 1) ∧
      ¬ RoundTrips (.vec Schema.misjudged) := by
  refine ⟨build_misjudged, encode_misjudged, decode_misjudged, fun h => ?_⟩
  obtain ⟨n, -, hd, -⟩ := h _ _ encode_misjudged
  have := hd []
  rw [List.append_nil, decode_misjudged] at this
  cases this

end Blueprint

end LedgerWire
