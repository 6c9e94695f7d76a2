import LedgerWire.Error.Sort
import LedgerWire.Proofs.Event.Log
import LedgerWire.Proofs.Schema.Safety
import LedgerWire.Proofs.Text.Base64

/-!
# Logs in base64

The bytes of a log are read into events or refused as malformed bytes. A text of a log is as good as the
bytes that it stands for, and the text that is written stands for the bytes it was written for. Other
texts are refused as malformed too, but for those with a code point beyond ASCII: they end in an error
that no reader of bytes has.
-/

namespace LedgerWire

open Schema

namespace DecodeError

theorem sort_of_category {x : DecodeError}
    (h : x.category ∈ [Category.truncated, .discriminant, .encoding]) :
    x.sort ∈ [ErrorSort.encoding, .truncated, .discriminant, .trailing] := by
  cases x with
  | floatWidth => exact absurd h (by decide)
  | size fault => exact absurd (show Category.overflow ∈ _ from h) (by decide)
  | trailing schema count => exact absurd (show Category.trailing ∈ _ from h) (by decide)
  | truncated | truncatedFloat | truncatedItems => exact .tail _ (.head _)
  | optionFlag | variantTag => exact .tail _ (.tail _ (.head _))
  | boolByte | utf8 => exact .head _

end DecodeError

theorem Base64.Fault.sort_of_ne {fault : Base64.Fault} (h : fault ≠ .notAscii) :
    fault.sort = .encoding := by
  cases fault with
  | notAscii => exact absurd rfl h
  | _ => rfl

namespace Log

variable {t : Text} {data raw : Bytes} {events : List Event}

/-- The result is one that a reader of bytes may have: events, or an error for malformed bytes. -/
def Answers (r : Except Error (List Event)) : Prop :=
  (∃ events, r = .ok events) ∨
    ∃ e, r = .error e ∧ e.sort ∈ [ErrorSort.encoding, .truncated, .discriminant, .trailing]

/-! ### Bytes -/

theorem log_safe : Safe Catalog.log :=
  (safe_iff log_nodes.1).mpr (meetsFloat_of_exact log_nodes.2.1)

theorem deserialize_error {x : DecodeError} (h : Catalog.log.deserialize data = .error x) :
    x.sort ∈ [ErrorSort.encoding, .truncated, .discriminant, .trailing] := by
  rcases bind_eq_error.mp h with h | ⟨⟨v, consumed⟩, -, h⟩
  · obtain ⟨v, n, hok⟩ | ⟨y, hy, hcategory⟩ := log_safe.decode data
    · cases h.symm.trans hok
    · cases h.symm.trans hy
      exact DecodeError.sort_of_category hcategory
  · obtain ⟨-, rfl⟩ := ite_eq_error.mp h
    exact .tail _ (.tail _ (.tail _ (.head _)))

theorem decode_of_error {x : DecodeError} (h : Catalog.log.deserialize data = .error x) :
    decode (.bytes data) = .error (.decode x) := by
  show ((Catalog.log.deserialize data).mapError Error.decode >>= _) = _
  rw [h]
  rfl

theorem answers_decode (data : Bytes) : Answers (decode (.bytes data)) := by
  cases h : Catalog.log.deserialize data with
  | error x => exact .inr ⟨_, decode_of_error h, deserialize_error h⟩
  | ok v =>
    obtain ⟨events, rfl, -⟩ := events_of_layout (layout_of_deserialize h)
    exact .inl ⟨_, (decode_of_deserialize h).trans (Event.ofValues_toValue events)⟩

/-! ### Texts -/

theorem decodeBase64_of_ok (h : Base64.decode t = .ok raw) :
    decodeBase64 t = decode (.bytes raw) := by
  show ((Base64.decode t).mapError Error.base64 >>= _) = _
  rw [h]
  rfl

theorem decodeBase64_of_error {fault : Base64.Fault} (h : Base64.decode t = .error fault) :
    decodeBase64 t = .error (.base64 fault) := by
  show ((Base64.decode t).mapError Error.base64 >>= _) = _
  rw [h]
  rfl

theorem not_answers_of_foreign (h : ¬ ∀ c ∈ t, c.isAscii = true) : ¬ Answers (decodeBase64 t) := by
  rw [decodeBase64_of_error (Base64.decode_of_not_ascii h)]
  rintro (⟨events, heq⟩ | ⟨e, heq, hsort⟩)
  · cases heq
  · cases heq
    exact absurd (show ErrorSort.value ∈ _ from hsort) (by decide)

/-- A text of ASCII that is not letters with their padding is refused as malformed. -/
theorem refused_of_not_padded (hascii : ∀ c ∈ t, c.isAscii = true) (h : ¬ Base64.IsPadded t) :
    ∃ fault : Base64.Fault, decodeBase64 t = .error (.base64 fault) ∧ fault.sort = .encoding := by
  cases hdecode : Base64.decode t with
  | ok raw => exact absurd (Base64.exists_decode.mp ⟨raw, hdecode⟩) h
  | error fault =>
    refine ⟨fault, decodeBase64_of_error hdecode, Base64.Fault.sort_of_ne ?_⟩
    rintro rfl
    exact Base64.decode_ne_notAscii hascii hdecode

/-- A text ends as bytes do just if it is of ASCII. Any other text ends in an error for values at large.
Of the texts of ASCII, those that are letters with padding end as the bytes they stand for, and all
others are refused as malformed. -/
theorem decodeBase64_answers_iff (t : Text) :
    (Answers (decodeBase64 t) ↔ ∀ c ∈ t, c.isAscii = true) ∧
      ((∃ c ∈ t, c.isAscii = false) → decodeBase64 t = .error (.base64 .notAscii) ∧
        (Error.base64 .notAscii).sort = .value) ∧
      ((∀ c ∈ t, c.isAscii = true) → ¬ Base64.IsPadded t → ∃ fault : Base64.Fault,
        decodeBase64 t = .error (.base64 fault) ∧ (Error.base64 fault).sort = .encoding) ∧
      (Base64.IsPadded t → ∃ raw, Base64.decode t = .ok raw ∧
        decodeBase64 t = decode (.bytes raw)) := by
  have hread (h : Base64.IsPadded t) :
      ∃ raw, Base64.decode t = .ok raw ∧ decodeBase64 t = decode (.bytes raw) := by
    obtain ⟨raw, hraw⟩ := Base64.exists_decode.mpr h
    exact ⟨raw, hraw, decodeBase64_of_ok hraw⟩
  refine ⟨⟨fun h => ?_, fun hascii => ?_⟩, ?_, refused_of_not_padded, hread⟩
  · by_contra hforeign
    exact not_answers_of_foreign hforeign h
  · by_cases hpadded : Base64.IsPadded t
    · obtain ⟨raw, -, heq⟩ := hread hpadded
      rw [heq]
      exact answers_decode raw
    · obtain ⟨fault, heq, hsort⟩ := refused_of_not_padded hascii hpadded
      exact .inr ⟨_, heq, hsort ▸ .head _⟩
  · rintro ⟨c, hc, hforeign⟩
    have hnot : ¬ ∀ c ∈ t, c.isAscii = true := fun h => by
      rw [h c hc] at hforeign
      cases hforeign
    exact ⟨decodeBase64_of_error (Base64.decode_of_not_ascii hnot), rfl⟩

/-- Three letters without a mark are refused, and four zeros are a log without events. -/
theorem decodeBase64_answers_iff_short :
    (∃ fault : Base64.Fault, decodeBase64 "AAA" = .error (.base64 fault) ∧
      (Error.base64 fault).sort = .encoding) ∧ Answers (decodeBase64 "AAAAAA==") := by
  have hshort : ¬ Base64.IsPadded "AAA" := by
    rw [← Base64.exists_decode]
    rintro ⟨raw, hraw⟩
    cases hraw
  have hascii : ("AAA" : Text).all CodePoint.isAscii := by decide
  have hzeros : ("AAAAAA==" : Text).all CodePoint.isAscii := by decide
  exact ⟨(decodeBase64_answers_iff "AAA").2.2.1 (List.all_eq_true.mp hascii) hshort,
    (decodeBase64_answers_iff "AAAAAA==").1.mpr (List.all_eq_true.mp hzeros)⟩

/-- A letter with an accent is no letter of the alphabet, yet not refused as malformed. -/
theorem accent_not_malformed : ¬ Answers (decodeBase64 [CodePoint.ofNat 0xE9]) :=
  not_answers_of_foreign fun h => absurd (h _ (List.mem_singleton.mpr rfl)) (by decide)

/-- The text of some bytes is read as the bytes are, whatever comes of it. So events that are written and
sent as a text are read back in their order, each with its number and with what it says. -/
theorem decodeBase64_encode :
    (∀ raw : Bytes, decodeBase64 (Base64.encode raw) = decode (.bytes raw)) ∧
      ∀ (events : List Event) (data : Bytes), encode events = .ok data →
        ∃ events', decodeBase64 (Base64.encode data) = .ok events' ∧
          List.Forall₂ Event.Same events events' := by
  have hread (raw : Bytes) : decodeBase64 (Base64.encode raw) = decode (.bytes raw) :=
    decodeBase64_of_ok (Base64.decode_encode raw)
  refine ⟨hread, fun events data h => ?_⟩
  rw [hread]
  exact decode_of_encode h

/-- An order of the book, whose twenty-eight bytes do not come out even. -/
theorem decodeBase64_encode_orderbook : ∃ (data : Bytes) (e : Event),
    encode [⟨.map [(.text "orderbook", .map [(.text "market_id", .int 1), (.text "price", .int 2),
      (.text "quantity", .int 3), (.text "side", .map [(.text "ask", .map [])])])], .int 9⟩] =
        .ok data ∧
      decodeBase64 (Base64.encode data) = .ok [e] ∧ e.id = .int 9 := by
  obtain ⟨data, hencode⟩ : ∃ data, encode [⟨.map [(.text "orderbook", .map [
      (.text "market_id", .int 1), (.text "price", .int 2), (.text "quantity", .int 3),
      (.text "side", .map [(.text "ask", .map [])])])], .int 9⟩] = .ok data := ⟨_, rfl⟩
  obtain ⟨events, hdecode, hsame⟩ := decodeBase64_encode.2 _ _ hencode
  obtain ⟨e, _, head, ⟨⟩, rfl⟩ := List.forall₂_cons_left_iff.mp hsame
  exact ⟨data, e, hencode, hdecode, head.id_eq.symm⟩

end Log

end LedgerWire
