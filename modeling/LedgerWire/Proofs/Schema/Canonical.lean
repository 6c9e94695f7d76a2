import LedgerWire.Proofs.Schema.RoundTrip

/-!
# What is read is written again

A value that is read is written again in no more bytes than were read; where no optional value is
directly around another one, these are the bytes that were read. That holds for every schema that was
built. That the bytes are read once more needs the lists inside to be let through, and how many of them
depends on whether values that are never read count: `Passable` leaves them out.
-/

namespace LedgerWire

namespace Schema

open Reader Value

variable {s : Schema} {v : Value} {bs data : Bytes} {n : Nat}

/-- What is read is written in the same way. -/
def Reencodes (s : Schema) : Prop :=
  ∀ data v n, s.decode data = .ok (v, n) → s.encode v = .ok (data.take n)

/-- A value spans just the byte strings that are written. -/
def AcceptsImage (s : Schema) : Prop :=
  ∀ data, (∃ v, s.deserialize data = .ok v) ↔ ∃ v, s.encode v = .ok data

/-- What is read is written in no more bytes, and these are read as the same value. -/
def Settles (s : Schema) : Prop :=
  ∀ data v n, s.decode data = .ok (v, n) →
    ∃ bs, s.encode v = .ok bs ∧ bs.length ≤ n ∧ s.decode bs = .ok (v, bs.length)

structure IsCanonical (s : Schema) : Prop where
  reencodes : s.all isFlat → Reencodes s
  image : s.all isFlat → AcceptsImage s
  settles : Settles s

theorem deserialize_eq_ok : s.deserialize data = .ok v ↔ s.decode data = .ok (v, data.length) := by
  simp only [deserialize, bind_eq_ok, Prod.exists]
  constructor
  · rintro ⟨w, n, h, hn⟩
    obtain ⟨rfl, rfl⟩ := ite_eq_ok.mp hn
    exact h
  · intro h
    exact ⟨v, data.length, h, if_pos rfl⟩

/-- A value is decoded from a layout of it, at the front of the data. -/
theorem layout_of_decode (h : s.decode data = .ok (v, n)) :
    ∃ window rest, data = window ++ rest ∧ n = window.length ∧ Layout .seen s v window := by
  obtain ⟨rest, hread⟩ := decode_eq_ok.mp h
  obtain ⟨window, hpass, hl⟩ := layout_of_read hread
  exact ⟨window, rest, hpass.rest, by simpa using hpass.offset, hl⟩

theorem layout_of_deserialize (h : s.deserialize data = .ok v) : Layout .seen s v data := by
  obtain ⟨window, rest, rfl, hlen, hl⟩ := layout_of_decode (deserialize_eq_ok.mp h)
  rw [List.length_append, Nat.add_eq_left, List.length_eq_zero_iff] at hlen
  rwa [hlen, List.append_nil]

/-- What is decoded is written again, in no more bytes than it took. -/
theorem encode_of_decode (hs : s.all isSound) (h : s.decode data = .ok (v, n)) :
    ∃ bs, s.encode v = .ok bs ∧ bs.length ≤ n ∧ (s.all isFlat → bs = data.take n) := by
  obtain ⟨window, rest, rfl, rfl, hl⟩ := layout_of_decode h
  obtain ⟨bs, htight, hle, heq⟩ := tighten hl
  refine ⟨bs, encode_of_layout hs id htight, hle, fun hf => ?_⟩
  rw [heq hf, List.take_left]

/-- The layout that is written is read as the value that it is of. -/
theorem deserialize_of_layout (hs : s.all isSound) (he : s.all isExact)
    (h : Layout .written s v bs) : s.deserialize bs = .ok v := by
  have hfits := fits_of_exact hs he AnyCount 0
  have hread := decode_of_takes (takes_of_layout hs h hfits (Nat.zero_le ([] : Bytes).length))
  rw [List.append_nil] at hread
  exact deserialize_eq_ok.mpr hread

theorem reencodes_of_flat (hs : s.all isSound) (hf : s.all isFlat) : Reencodes s := by
  intro data v n h
  obtain ⟨bs, he, -, heq⟩ := encode_of_decode hs h
  rw [he, heq hf]

theorem acceptsImage_of_fits (hs : s.all isSound) (hflat : s.all isFlat) (hf : Fits AnyCount s 0) :
    AcceptsImage s := by
  intro data
  constructor
  · rintro ⟨v, h⟩
    have := reencodes_of_flat hs hflat data v _ (deserialize_eq_ok.mp h)
    exact ⟨v, by rwa [List.take_length] at this⟩
  · rintro ⟨v, h⟩
    obtain ⟨n, -, hdecode, -⟩ := roundTrips_of_fits hs hf v data h
    have := hdecode []
    rw [List.append_nil] at this
    exact ⟨n, deserialize_eq_ok.mpr this⟩

theorem fits_of_acceptsImage (hs : s.all isSound) (h : AcceptsImage s) : Fits AnyCount s 0 := by
  by_contra hf
  obtain ⟨v, bs, hrefused⟩ := exists_refused hs hf
  obtain ⟨w, hw⟩ := (h bs).mpr ⟨v, hrefused.written⟩
  exact hrefused.decode_ne_ok _ (deserialize_eq_ok.mp hw)

theorem settles_of_fits (hs : s.all isSound) (hf : Fits Passable s 0) : Settles s := by
  intro data v n h
  obtain ⟨window, rest, rfl, rfl, hl⟩ := layout_of_decode h
  obtain ⟨bs, htight, hle, -⟩ := tighten hl
  have := decode_of_takes (takes_of_layout hs htight hf (Nat.zero_le ([] : Bytes).length))
  rw [List.append_nil] at this
  exact ⟨bs, encode_of_layout hs id htight, hle, this⟩

/-- Where a list is refused that more bytes would let through, a value is decoded from more bytes than
it is written in. -/
theorem exists_decoded (hs : s.all isSound) (hf : ¬ Fits Passable s 0) :
    ∃ v bs rest, s.encode v = .ok bs ∧ s.decode (bs ++ rest) = .ok (v, bs.length) ∧
      ∀ x, s.decode bs ≠ .ok x := by
  obtain ⟨v, bs, hrefused⟩ := exists_refused hs hf
  obtain ⟨need, htaken⟩ := hrefused.taken fun _ _ h => h
  have hneed : need ≤ (List.replicate need (0 : UInt8)).length := by rw [List.length_replicate]
  exact ⟨v, bs, _, hrefused.written, decode_of_takes (htaken _ hneed), hrefused.decode_ne_ok⟩

theorem fits_of_settles (hs : s.all isSound) (h : Settles s) : Fits Passable s 0 := by
  by_contra hf
  obtain ⟨v, bs, rest, he, hd, hne⟩ := exists_decoded hs hf
  obtain ⟨bs', he', -, hd'⟩ := h _ v _ hd
  cases he.symm.trans he'
  exact hne _ hd'

theorem isCanonical_of_exact (hs : s.all isSound) (he : s.all isExact) : IsCanonical s where
  reencodes := reencodes_of_flat hs
  image hflat := acceptsImage_of_fits hs hflat (fits_of_exact hs he _ _)
  settles := settles_of_fits hs (fits_of_exact hs he _ _)

/-- What is read from a schema that was built is written again, always; that the wire format is
canonical fails for just the schemas inside of which a list is not let through. -/
theorem isCanonical_iff_fits (b : Blueprint) (s : Schema) (h : b.build = .ok s) :
    (IsCanonical s ↔ (s.all isFlat → Fits AnyCount s 0) ∧ Fits Passable s 0) ∧
      (∀ data v n, s.decode data = .ok (v, n) →
        ∃ bs, s.encode v = .ok bs ∧ bs.length ≤ n ∧ (s.all isFlat → bs = data.take n)) ∧
      (b.wholeWidths → IsCanonical s) ∧
      ∀ f ∈ Catalog.named, f.2.all isFlat ∧ IsCanonical f.2 := by
  have hs := Blueprint.sound_of_build h
  refine ⟨⟨fun hc => ?_, fun ⟨hany, hpassable⟩ => ?_⟩, fun data v n => encode_of_decode hs,
    fun hw => isCanonical_of_exact hs (Blueprint.exact_of_build hw h), fun f hf => ?_⟩
  · exact ⟨fun hflat => fits_of_acceptsImage hs (hc.image hflat), fits_of_settles hs hc.settles⟩
  · exact ⟨reencodes_of_flat hs, fun hflat => acceptsImage_of_fits hs hflat (hany hflat),
      settles_of_fits hs hpassable⟩
  · obtain ⟨hsound, hexact, hflat⟩ := Catalog.named_nodes f hf
    exact ⟨hflat, isCanonical_of_exact hsound hexact⟩

theorem isCanonical_texts :
    (Blueprint.vec (.option .text)).build = .ok (.vec (.option .text)) ∧
      IsCanonical (.vec (.option .text)) :=
  ⟨rfl, (isCanonical_iff_fits (.vec (.option .text)) _ rfl).2.2.1 rfl⟩

/-- What `misjudged` reads with one byte to spare is written again, but not read without that byte. -/
theorem misjudged_not_canonical :
    (Blueprint.vec Blueprint.misjudged).build = .ok (.vec misjudged) ∧
      (vec misjudged).all isFlat ∧
      decode (.vec misjudged) [1, 0, 0, 0, 1, 255] = .ok (.list [.map [(.text "b", .list [])]], 5) ∧
      encode (.vec misjudged) (.list [.map [(.text "b", .list [])]]) = .ok [1, 0, 0, 0, 1] ∧
      deserialize (.vec misjudged) [1, 0, 0, 0, 1] =
        .error (.truncatedItems (describe (.vec misjudged)) 1) ∧
      ¬ IsCanonical (.vec misjudged) := by
  have hd : deserialize (.vec misjudged) [1, 0, 0, 0, 1] =
      .error (.truncatedItems (describe (.vec misjudged)) 1) := by
    unfold deserialize
    rw [decode_misjudged]
    rfl
  refine ⟨Blueprint.build_misjudged, rfl, decode_misjudged_spare, encode_misjudged, hd, fun h => ?_⟩
  obtain ⟨v, hv⟩ := (h.image rfl [1, 0, 0, 0, 1]).mpr ⟨_, encode_misjudged⟩
  cases hd.symm.trans hv

end Schema

end LedgerWire
