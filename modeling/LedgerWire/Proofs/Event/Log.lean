import LedgerWire.Event.Log
import LedgerWire.Proofs.Schema.Canonical

/-!
# Logs come back event by event

The records of a log are just the events, each as a record of what it says and of its number. So a log
that is read has a declared kind in every event, and its events are written as the bytes they came
from; and events that are written are read back, up to the order of entries in what they say.
-/

namespace LedgerWire

open Schema

namespace Event

/-- The kinds of events that are declared. -/
def kinds : List Text := ["orderbook", "order", "trade", "balance"]

/-- An event of a kind, with one entry for it. -/
structure Tells (e : Event) (name : Text) (payload : Value) : Prop where
  data_eq : e.data = .map [(.text name, payload)]
  kind_eq : e.kind = .ok (.text name)
  payload_eq : e.payload = .ok payload

/-- The same number, and the same data up to the order of entries. -/
structure Same (e e' : Event) : Prop where
  id_eq : e.id = e'.id
  data : Value.Reordered e.data e'.data

variable {r : Rules} {v : Value} {bs : Bytes} {e : Event}

theorem tells_of_data {name : Text} {payload : Value} (h : e.data = .map [(.text name, payload)]) :
    e.Tells name payload := by
  have hentry : e.entry = .ok (.text name, payload) := by
    unfold entry
    rw [h]
  exact ⟨h, congrArg (·.map Prod.fst) hentry, congrArg (·.map Prod.snd) hentry⟩

@[simp]
theorem ofValues_toValue (events : List Event) : ofValues (events.map toValue) = .ok events := by
  induction events with
  | nil => rfl
  | cons e events ih =>
    show (ofValues (events.map toValue) >>= fun later => pure (e :: later)) = _
    rw [ih]
    rfl

/-! ### Events and their records -/

theorem tells_of_layout (h : Layout r Catalog.event e.data bs) :
    ∃ name ∈ kinds, ∃ payload, e.Tells name payload := by
  generalize hdata : e.data = data at h
  rcases h with - | - | - | - | - | - | - | - | - | - | ⟨hvariant, -⟩
  have hname := List.mem_map_of_mem (f := (·.1)) (List.mem_of_getElem? hvariant)
  exact ⟨_, hname, _, tells_of_data hdata⟩

/-- A record of a log is that of an event. -/
theorem toValue_of_layout (h : Layout r Catalog.numberedEvent v bs) :
    ∃ e : Event, e.toValue = v ∧ ∃ name ∈ kinds, ∃ payload, e.Tells name payload := by
  rcases h with - | - | - | - | - | - | - | - | - | hdata
  rcases hdata with - | ⟨hdata, hid⟩
  rcases hid with - | ⟨-, ⟨⟩⟩
  exact ⟨⟨_, _⟩, rfl, tells_of_layout hdata⟩

theorem toValues_of_layout {records : List Value}
    (h : LayoutItems r Catalog.numberedEvent records bs) :
    ∃ events : List Event, events.map toValue = records ∧
      ∀ e ∈ events, ∃ name ∈ kinds, ∃ payload, e.Tells name payload := by
  induction records generalizing bs with
  | nil => exact ⟨[], rfl, by simp⟩
  | cons record records ih =>
    rcases h with - | ⟨head, tail⟩
    obtain ⟨e, rfl, he⟩ := toValue_of_layout head
    obtain ⟨events, rfl, hevents⟩ := ih tail
    exact ⟨e :: events, rfl, List.forall_mem_cons.mpr ⟨he, hevents⟩⟩

theorem event_nodes : Catalog.event.all isSound ∧ Catalog.event.all isDirect :=
  ⟨(Catalog.nodes_of_get (rfl : Catalog.get "event" = .ok Catalog.event)).1, by decide⟩

/-- What is written for an event is a layout of one that is the same. -/
theorem layout_of_toValue (h : Catalog.numberedEvent.encode e.toValue = .ok bs) :
    ∃ e', e.Same e' ∧ Layout .written Catalog.numberedEvent e'.toValue bs := by
  obtain ⟨-, -, hfields⟩ := bind_eq_ok.mp h
  obtain ⟨front, hdata, later, hlater, rfl⟩ := (encodeFields_cons rfl).mp hfields
  obtain ⟨back, hid, rest, hrest, rfl⟩ := (encodeFields_cons rfl).mp hlater
  cases hrest
  obtain ⟨data, hsame, hlayout⟩ := layout_of_encode event_nodes.1 hdata
  -- No byte string is inside that a list could have stood for.
  rw [plain_eq_self event_nodes.2] at hsame
  obtain ⟨n, hn, range, rfl⟩ := encode_integer.mp hid
  exact ⟨⟨data, .int n⟩, ⟨hn, hsame⟩, .record (.cons hlayout (.cons (.integer range) .nil))⟩

theorem layout_of_toValues {events : List Event} {parts : List Bytes}
    (h : List.Forall₂ (fun e part => Catalog.numberedEvent.encode (toValue e) = .ok part)
      events parts) :
    ∃ events', List.Forall₂ Same events events' ∧
      LayoutItems .written Catalog.numberedEvent (events'.map toValue) parts.flatten := by
  induction h with
  | nil => exact ⟨[], .nil, .nil _⟩
  | cons head tail ih =>
    obtain ⟨e', hsame, hlayout⟩ := layout_of_toValue head
    obtain ⟨events', hsames, hlayouts⟩ := ih
    exact ⟨e' :: events', .cons hsame hsames, .cons hlayout hlayouts⟩

end Event

/-! ### Logs -/

namespace Log

variable {events : List Event} {data : Bytes}

theorem log_nodes : Catalog.log.all isSound ∧ Catalog.log.all isExact ∧ Catalog.log.all isFlat :=
  Catalog.nodes_of_get (rfl : Catalog.get "logs" = .ok Catalog.log)

theorem decode_of_deserialize {records : List Value}
    (h : Catalog.log.deserialize data = .ok (.list records)) :
    decode (.bytes data) = Event.ofValues records := by
  show ((Catalog.log.deserialize data).mapError Error.decode >>= _) = _
  rw [h]
  rfl

theorem encode_eq_ok : encode events = .ok data ↔
    Catalog.log.encode (.list (events.map Event.toValue)) = .ok data :=
  mapError_eq_ok

/-- The records of a layout are those of events of declared kinds, counted in front of them. -/
theorem events_of_layout {r : Rules} {v : Value} (h : Layout r Catalog.log v data) :
    ∃ events : List Event, v = .list (events.map Event.toValue) ∧ 4 ≤ data.length ∧
      events.length = Bytes.toNatLE (data.take 4) ∧
      ∀ e ∈ events, ∃ name ∈ Event.kinds, ∃ payload, e.Tells name payload := by
  rcases h with - | - | - | - | - | - | - | ⟨fits, -, hrecords⟩
  obtain ⟨events, rfl, hkinds⟩ := Event.toValues_of_layout hrecords
  rw [List.length_map] at fits ⊢
  refine ⟨events, rfl, ?_, ?_, hkinds⟩
  · simp [lengthSize]
  · show events.length = Bytes.toNatLE (List.take lengthSize _)
    rw [List.take_left' (Bytes.length_ofNatLE _ _), Bytes.toNatLE_ofNatLE]
    exact (Nat.mod_eq_of_lt (Nat.lt_of_le_of_lt fits (by decide))).symm

theorem deserialize_of_decode (h : decode (.bytes data) = .ok events) :
    Catalog.log.deserialize data = .ok (.list (events.map Event.toValue)) ∧ 4 ≤ data.length ∧
      events.length = Bytes.toNatLE (data.take 4) ∧
      ∀ e ∈ events, ∃ name ∈ Event.kinds, ∃ payload, e.Tells name payload := by
  obtain ⟨v, hv, -⟩ := bind_eq_ok.mp
    (show ((Catalog.log.deserialize data).mapError Error.decode >>= _) = _ from h)
  have hspan := mapError_eq_ok.mp hv
  obtain ⟨events', rfl, hrest⟩ := events_of_layout (layout_of_deserialize hspan)
  rw [decode_of_deserialize hspan, Event.ofValues_toValue] at h
  cases h
  exact ⟨hspan, hrest⟩

theorem encode_of_deserialize (h : Catalog.log.deserialize data =
    .ok (.list (events.map Event.toValue))) : encode events = .ok data := by
  have hwritten := reencodes_of_flat log_nodes.1 log_nodes.2.2 _ _ _ (deserialize_eq_ok.mp h)
  rw [List.take_length] at hwritten
  exact encode_eq_ok.mpr hwritten

theorem decode_of_encode (h : encode events = .ok data) :
    ∃ events', decode (.bytes data) = .ok events' ∧ List.Forall₂ Event.Same events events' := by
  obtain ⟨records, parts, ⟨⟩, fits, hparts, rfl⟩ := encode_vec.mp (encode_eq_ok.mp h)
  obtain ⟨events', hsame, hlayouts⟩ :=
    Event.layout_of_toValues (List.forall₂_map_left_iff.mp hparts)
  have hlen : (events.map Event.toValue).length = (events'.map Event.toValue).length := by
    rw [List.length_map, List.length_map, hsame.length_eq]
  rw [hlen] at fits ⊢
  have hlayout : Layout .written Catalog.log _ _ := .vec fits trivial hlayouts
  refine ⟨events', ?_, hsame⟩
  rw [decode_of_deserialize (deserialize_of_layout log_nodes.1 log_nodes.2.1 hlayout)]
  exact Event.ofValues_toValue events'

/-- A log that is read has as many events as it counts, each of one declared kind, and is written again
in the same bytes. Events that are written are read back in their order, each with its number and with
what it says. -/
theorem lossless :
    (∀ (data : Bytes) (events : List Event), decode (.bytes data) = .ok events →
      4 ≤ data.length ∧ events.length = Bytes.toNatLE (data.take 4) ∧ encode events = .ok data ∧
        ∀ e ∈ events, ∃ name ∈ Event.kinds, ∃ payload, e.Tells name payload) ∧
    ∀ (events : List Event) (data : Bytes), encode events = .ok data →
      ∃ events', decode (.bytes data) = .ok events' ∧ List.Forall₂ Event.Same events events' := by
  refine ⟨fun data events h => ?_, fun events data => decode_of_encode⟩
  obtain ⟨hspan, hlen, hcount, hkinds⟩ := deserialize_of_decode h
  exact ⟨hlen, hcount, encode_of_deserialize hspan, hkinds⟩

/-- A change of the order book, with entries that do not stand in the order of the schema. -/
theorem lossless_orderbook : ∃ (data : Bytes) (e : Event),
    encode [⟨.map [(.text "orderbook", .map [(.text "side", .map [(.text "bid", .map [])]),
      (.text "price", .int 2), (.text "quantity", .int 3), (.text "market_id", .int 1)])], .int 9⟩] =
        .ok data ∧
      decode (.bytes data) = .ok [e] ∧ e.id = .int 9 ∧
      (∃ name ∈ Event.kinds, ∃ payload, e.Tells name payload) ∧ encode [e] = .ok data := by
  obtain ⟨hread, hwritten⟩ := lossless
  obtain ⟨data, hencode⟩ : ∃ data, encode [⟨.map [(.text "orderbook", .map [
      (.text "side", .map [(.text "bid", .map [])]), (.text "price", .int 2),
      (.text "quantity", .int 3), (.text "market_id", .int 1)])], .int 9⟩] = .ok data := ⟨_, rfl⟩
  obtain ⟨events, hdecode, hsame⟩ := hwritten _ _ hencode
  obtain ⟨e, _, head, ⟨⟩, rfl⟩ := List.forall₂_cons_left_iff.mp hsame
  obtain ⟨-, -, hagain, hkinds⟩ := hread _ _ hdecode
  exact ⟨data, e, hencode, hdecode, head.id_eq.symm, hkinds e List.mem_cons_self, hagain⟩

end Log

end LedgerWire
