import LedgerWire.Proofs.Envelope
import LedgerWire.Proofs.Value.Cast

/-!
# Envelopes from records

An envelope is built from its parts, or made of a record that holds them and written then. The arguments
of the record are cast to bytes on the way. Whatever is built from the parts is written from the record
in the same bytes. Arguments that hold no bytes are refused among the parts, yet not in a record.
-/

namespace LedgerWire

namespace Envelope

open Schema Value

variable {method args gas deposit : Value} {body data : Bytes} {entries : Entries}

/-- The bytes that are written for a record. -/
def ofRecord (entries : Entries) : Except Error Bytes := ofValue (.map entries) >>= toBytes

/-- The record has these four parts, in any order and among others. -/
structure Holds (entries : Entries) (method args gas deposit : Value) : Prop where
  method : entries.field? "method" = some method
  args : entries.field? "args" = some args
  gas : entries.field? "gas" = some gas
  deposit : entries.field? "deposit" = some deposit

/-- Arguments count by the byte string that they stand for. -/
theorem build_iff_spells : build method args gas deposit = .ok data ↔
    ∃ body, Spells args body ∧ build method (.bytes body) gas deposit = .ok data := by
  constructor
  · intro h
    obtain ⟨part₁, part₂, part₃, part₄, h₁, h₂, h₃, h₄, rfl⟩ := build_parts.mp h
    obtain ⟨body, hspells, hlen, hbody⟩ := encode_bytes.mp h₂
    have hargs : encode .bytes (.bytes body) = .ok part₂ :=
      encode_bytes.mpr ⟨body, .inl rfl, hlen, hbody⟩
    exact ⟨body, hspells, build_parts.mpr ⟨_, _, _, _, h₁, hargs, h₃, h₄, rfl⟩⟩
  · rintro ⟨body, hspells, h⟩
    obtain ⟨part₁, part₂, part₃, part₄, h₁, h₂, h₃, h₄, rfl⟩ := build_parts.mp h
    obtain ⟨body', hbody', hlen, hpart⟩ := encode_bytes.mp h₂
    obtain rfl : body = body' := by
      rcases hbody' with hbytes | ⟨_, hlist, -⟩
      · exact Value.bytes.inj hbytes
      · cases hlist
    have hargs : encode .bytes args = .ok part₂ := encode_bytes.mpr ⟨body, hspells, hlen, hpart⟩
    exact build_parts.mpr ⟨_, _, _, _, h₁, hargs, h₃, h₄, rfl⟩

theorem ofValue_of_holds (h : Holds entries method args gas deposit) :
    ofValue (.map entries) =
      (args.castBytes.mapError .cast).map fun body => ⟨method, body, gas, deposit⟩ := by
  simp only [ofValue, field, h.method, h.args, h.gas, h.deposit]
  show (args.castBytes.mapError Error.cast >>= fun body =>
    (.ok ⟨method, body, gas, deposit⟩ : Except Error Envelope)) = _
  cases args.castBytes with
  | error fault => rfl
  | ok body => rfl

/-- What is written for a record is the envelope around the cast of its arguments. -/
theorem ofRecord_eq_ok (h : Holds entries method args gas deposit) :
    ofRecord entries = .ok data ↔ ∃ body, (Spells args body ∨ Loose args body) ∧
      build method (.bytes body) gas deposit = .ok data := by
  rw [ofRecord, ofValue_of_holds h, bind_eq_ok]
  simp only [map_eq_ok, mapError_eq_ok, castBytes_eq_ok]
  constructor
  · rintro ⟨_, ⟨body, hcast, rfl⟩, hbuild⟩
    exact ⟨body, hcast, hbuild⟩
  · rintro ⟨body, hcast, hbuild⟩
    exact ⟨_, ⟨body, hcast, rfl⟩, hbuild⟩

theorem build_ne_ok_of_loose (h : Loose args body) : build method args gas deposit ≠ .ok data := by
  intro hbuild
  obtain ⟨body', hspells, -⟩ := build_iff_spells.mp hbuild
  exact h.not_spells hspells

/-- What is built from the parts is written from a record of them, in the same bytes. The converse holds
just where no value without bytes, given as the arguments, has a cast that fits into an envelope: such a
value becomes the bytes of the arguments in a record, and is refused among the parts. -/
theorem record_agrees_iff (h : Holds entries method args gas deposit) :
    (∀ data, build method args gas deposit = .ok data → ofRecord entries = .ok data) ∧
      ((∀ data, ofRecord entries = .ok data → build method args gas deposit = .ok data) ↔
        ∀ body data, Loose args body → build method (.bytes body) gas deposit ≠ .ok data) ∧
      ∀ body, Loose args body → ofValue (.map entries) = .ok ⟨method, body, gas, deposit⟩ ∧
        ∀ data, build method args gas deposit ≠ .ok data := by
  refine ⟨?_, ⟨?_, ?_⟩, ?_⟩
  · intro data hbuild
    obtain ⟨body, hspells, hbody⟩ := build_iff_spells.mp hbuild
    exact (ofRecord_eq_ok h).mpr ⟨body, .inl hspells, hbody⟩
  · intro hagrees body data hloose hbody
    have hrecord := (ofRecord_eq_ok h).mpr ⟨body, .inr hloose, hbody⟩
    exact build_ne_ok_of_loose hloose (hagrees data hrecord)
  · intro hnone data hrecord
    obtain ⟨body, hspells | hloose, hbody⟩ := (ofRecord_eq_ok h).mp hrecord
    · exact build_iff_spells.mpr ⟨body, hspells, hbody⟩
    · exact absurd hbody (hnone body data hloose)
  · intro body hloose
    have hcast : args.castBytes = .ok body := castBytes_eq_ok.mpr (.inr hloose)
    refine ⟨?_, fun data => build_ne_ok_of_loose hloose⟩
    rw [ofValue_of_holds h, hcast]
    rfl

/-- The record of a call with one byte of arguments. -/
theorem record_agrees_iff_swap :
    ∃ data, ofRecord [(.text "gas", .int 5), (.text "method", .text "swap"),
      (.text "deposit", .int 6), (.text "args", .list [.int 1])] = .ok data ∧
      build (.text "swap") (.list [.int 1]) (.int 5) (.int 6) = .ok data := by
  have hparts : Holds [(.text "gas", .int 5), (.text "method", .text "swap"),
      (.text "deposit", .int 6), (.text "args", .list [.int 1])]
      (.text "swap") (.list [.int 1]) (.int 5) (.int 6) := ⟨rfl, rfl, rfl, rfl⟩
  obtain ⟨hsame, -, -⟩ := record_agrees_iff hparts
  exact ⟨_, hsame _ rfl, rfl⟩

/-- The number three is refused as arguments, and becomes three zeros in a record. -/
theorem number_becomes_zeros :
    ofRecord [(.text "method", .text "swap"), (.text "args", .int 3), (.text "gas", .int 0),
        (.text "deposit", .int 0)] = build (.text "swap") (.bytes [0, 0, 0]) (.int 0) (.int 0) ∧
      (∃ data, build (.text "swap") (.bytes [0, 0, 0]) (.int 0) (.int 0) = .ok data) ∧
      ∀ data, build (.text "swap") (.int 3) (.int 0) (.int 0) ≠ .ok data := by
  have hloose : Loose (.int 3) [0, 0, 0] := .int (n := 3) (by decide)
  exact ⟨rfl, ⟨_, rfl⟩, fun data => build_ne_ok_of_loose hloose⟩

end Envelope

end LedgerWire
