import LedgerWire.Proofs.Schema.Canonical

/-!
# The fewest bytes

A schema tells the fewest bytes of a value before any is written or read. `Schema.IsLeast` says what a
number has to be for that: no value is written in fewer bytes, none is read from fewer, and one is
written in just so many. The length of the shortest layouts is such a number, so `Schema.minSize` is
right just where it tells that one. It does wherever the widths were given as integers.
-/

namespace LedgerWire

namespace Schema

variable {s : Schema} {size : Quantity} {m : Nat}

/-- So many bytes are the fewest that a value is written in or read from. -/
structure IsLeast (s : Schema) (size : Quantity) : Prop where
  written : ∀ v bs, s.encode v = .ok bs → size.IsAtMost bs.length
  read : ∀ data v n, s.decode data = .ok (v, n) → size.IsAtMost n
  attained : ∃ v bs, s.encode v = .ok bs ∧ size.Equals bs.length

/-- The fewest bytes are told. -/
def TellsLeast (s : Schema) : Prop := ∃ size, s.minSize = .ok size ∧ IsLeast s size

theorem isLeast_of_shortest (hs : s.all isSound) (hm : shortest? s = some m) (h : size.Equals m) :
    IsLeast s size where
  written v bs hv := by
    obtain ⟨n, -, hl⟩ := layout_of_encode hs hv
    obtain ⟨k, hk, hle⟩ := le_of_layout hl
    cases hm.symm.trans hk
    exact (Quantity.isAtMost_iff h).mpr hle
  read data v n hd := by
    obtain ⟨window, rest, -, rfl, hl⟩ := layout_of_decode hd
    obtain ⟨k, hk, hle⟩ := le_of_layout hl
    cases hm.symm.trans hk
    exact (Quantity.isAtMost_iff h).mpr hle
  attained := by
    obtain ⟨v, bs, hlight⟩ := exists_lightest hs hm
    exact ⟨v, bs, hlight.written, by rwa [hlight.length]⟩

/-- The value that is written in so few bytes is no longer than one with a shortest layout. -/
theorem shortest_of_isLeast (hs : s.all isSound) (h : IsLeast s size) :
    ∃ m, shortest? s = some m ∧ size.Equals m := by
  obtain ⟨v, bs, hv, heq⟩ := h.attained
  obtain ⟨n, -, hl⟩ := layout_of_encode hs hv
  obtain ⟨m, hm, hle⟩ := le_of_layout hl
  obtain ⟨light, short, hlight⟩ := exists_lightest hs hm
  have hge : bs.length ≤ m := by
    rw [← hlight.length]
    exact (Quantity.isAtMost_iff heq).mp (h.written light short hlight.written)
  exact ⟨m, hm, by rwa [Nat.le_antisymm hle hge]⟩

theorem isLeast_int_iff (hs : s.all isSound) : IsLeast s (.int m) ↔ shortest? s = some m := by
  constructor
  · intro h
    obtain ⟨n, hn, heq⟩ := shortest_of_isLeast hs h
    have hmn := (Quantity.isAtMost_iff (n := m) heq).mp (.inr (Quantity.equals_int m))
    have hnm := (Quantity.isAtMost_iff (Quantity.equals_int m)).mp (.inr heq)
    rwa [Nat.le_antisymm hnm hmn]
  · intro hm
    exact isLeast_of_shortest hs hm (Quantity.equals_int m)

theorem tellsLeast_iff (hs : s.all isSound) :
    TellsLeast s ↔ ∃ m size, shortest? s = some m ∧ s.minSize = .ok size ∧ size.Equals m := by
  constructor
  · rintro ⟨size, hsize, h⟩
    obtain ⟨m, hm, heq⟩ := shortest_of_isLeast hs h
    exact ⟨m, size, hm, hsize, heq⟩
  · rintro ⟨m, size, hm, hsize, heq⟩
    exact ⟨size, hsize, isLeast_of_shortest hs hm heq⟩

theorem le_length_of_decode {data : Bytes} {v : Value} {n : Nat} (h : s.decode data = .ok (v, n)) :
    n ≤ data.length := by
  obtain ⟨window, rest, rfl, rfl, -⟩ := layout_of_decode h
  rw [List.length_append]
  exact Nat.le_add_right _ _

/-- A schema that was built tells the fewest bytes just where it tells the length of its shortest
layouts; that is the fewest, always. -/
theorem tellsLeast_iff_shortest (b : Blueprint) (s : Schema) (h : b.build = .ok s) :
    (∀ data v n, s.decode data = .ok (v, n) → n ≤ data.length) ∧
      (∀ m : Nat, IsLeast s (.int m) ↔ shortest? s = some m) ∧
      (TellsLeast s ↔ ∃ m size, shortest? s = some m ∧ s.minSize = .ok size ∧ size.Equals m) ∧
      (b.wholeWidths → ∃ m : Nat, s.minSize = .ok (.int m) ∧ IsLeast s (.int m)) := by
  have hs := Blueprint.sound_of_build h
  refine ⟨fun _ _ _ => le_length_of_decode, fun _ => isLeast_int_iff hs, tellsLeast_iff hs, fun hw => ?_⟩
  obtain ⟨m, hsize, hm⟩ := minSize_of_exact hs (Blueprint.exact_of_build hw h)
  exact ⟨m, hsize, (isLeast_int_iff hs).mpr hm⟩

theorem tellsLeast_texts :
    (Blueprint.array (.record [(.text "t", .text), (.text "n", .option .bool)]) (.int 3)).build =
        .ok (.array (.record [("t", .text), ("n", .option .bool)]) 3) ∧
      IsLeast (.array (.record [("t", .text), ("n", .option .bool)]) 3) (.int 15) :=
  have h := tellsLeast_iff_shortest
    (.array (.record [(.text "t", .text), (.text "n", .option .bool)]) (.int 3)) _ rfl
  ⟨rfl, (h.2.1 15).mpr rfl⟩

/-- Two bytes are told, and one is written. -/
theorem misjudged_not_least :
    Blueprint.misjudged.build = .ok misjudged ∧ misjudged.minSize = .ok (.int 2) ∧
      misjudged.encode (.map [(.text "b", .list [])]) = .ok [1] ∧ ¬ TellsLeast misjudged := by
  have hshort : misjudged.encode (.map [(.text "b", .list [])]) = .ok [1] := rfl
  refine ⟨Blueprint.build_eq_ok.mpr Blueprint.offer_misjudged, minSize_misjudged, hshort, ?_⟩
  rintro ⟨size, hsize, h⟩
  cases minSize_misjudged.symm.trans hsize
  have hle := (Quantity.isAtMost_iff (Quantity.equals_int 2)).mp (h.written _ _ hshort)
  exact absurd hle (by decide)

end Schema

end LedgerWire
