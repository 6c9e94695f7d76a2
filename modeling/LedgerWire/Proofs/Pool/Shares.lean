import LedgerWire.Pool.Wire
import LedgerWire.Proofs.Schema.Acceptance
import LedgerWire.Proofs.Schema.Limits
import Mathlib.Data.List.Dedup

/-!
# Shares by pool

Shares are written in the order of their pools, so the order in which a mapping came by its entries
does not show, and what is written is read back. Of bytes that are read only the last entry of each pool
is kept, wherever it stands: they are written again as they were just if their entries rise from pool to
pool.
-/

namespace LedgerWire

open Schema

namespace Shares

/-! ### Pools and shares as numbers -/

/-- The entry of a mapping for a pool and the shares of it. -/
def entry (e : Nat × Nat) : Value × Value := (.int e.1, .int e.2)

def entries (held : List (Nat × Nat)) : Entries := held.map entry

/-- What stands on the wire for an entry. -/
def record (e : Nat × Nat) : Value := .map [(.text "pool_id", .int e.1), (.text "shares", .int e.2)]

def records (held : List (Nat × Nat)) : List Value := held.map record

/-- No number has more than 128 bits. -/
def Small (held : List (Nat × Nat)) : Prop := ∀ e ∈ held, e.1 < 2 ^ 128 ∧ e.2 < 2 ^ 128

instance (held : List (Nat × Nat)) : Decidable (Small held) :=
  inferInstanceAs (Decidable (∀ e ∈ held, e.1 < 2 ^ 128 ∧ e.2 < 2 ^ 128))

/-- Two numbers of 128 bits. -/
def entryWire (e : Nat × Nat) : Bytes := Bytes.ofNatLE 16 e.1 ++ Bytes.ofNatLE 16 e.2

/-- A number in front that counts the entries, and what each of them takes. -/
def wire (held : List (Nat × Nat)) : Bytes :=
  Bytes.ofNatLE lengthSize held.length ++ held.flatMap entryWire

/-- The entries in the order of their pools. -/
def sorted (held : List (Nat × Nat)) : List (Nat × Nat) := held.mergeSort fun a b => a.1 ≤ b.1

/-- Gives a pool its shares; a pool that is there already keeps its place. -/
def put (e : Nat × Nat) : List (Nat × Nat) → List (Nat × Nat)
  | [] => [e]
  | x :: held => if x.1 = e.1 then e :: held else x :: put e held

/-- The mapping that entries make one after the other. -/
def latest (held : List (Nat × Nat)) : List (Nat × Nat) := held.foldl (fun kept e => put e kept) []

variable {held kept : List (Nat × Nat)} {e x : Nat × Nat} {data : Bytes}

/-! ### The order of pools -/

theorem sorted_perm (held : List (Nat × Nat)) : (sorted held).Perm held := List.mergeSort_perm held _

@[simp] theorem length_sorted (held : List (Nat × Nat)) : (sorted held).length = held.length :=
  (sorted_perm held).length_eq

theorem small_sorted (h : Small held) : Small (sorted held) :=
  fun e he => h e ((sorted_perm held).mem_iff.mp he)

theorem nodup_sorted (h : (held.map (·.1)).Nodup) : ((sorted held).map (·.1)).Nodup :=
  (((sorted_perm held).map _).nodup_iff).mpr h

theorem sorted_pairwise_le (held : List (Nat × Nat)) : (sorted held).Pairwise fun a b => a.1 ≤ b.1 := by
  have h : (sorted held).Pairwise fun a b => decide (a.1 ≤ b.1) = true := by
    refine List.pairwise_mergeSort (fun a b c hab hbc => ?_) (fun a b => ?_) held
    · rw [decide_eq_true_eq] at hab hbc ⊢
      exact hab.trans hbc
    · rw [Bool.or_eq_true, decide_eq_true_eq, decide_eq_true_eq]
      exact Nat.le_total a.1 b.1
  exact h.imp of_decide_eq_true

/-- Where no pool stands twice, the order is strict. -/
theorem sorted_pairwise_lt (h : (held.map (·.1)).Nodup) :
    (sorted held).Pairwise fun a b => a.1 < b.1 := by
  have hne : (sorted held).Pairwise fun a b => a.1 ≠ b.1 := List.pairwise_map.mp (nodup_sorted h)
  exact (sorted_pairwise_le held).imp₂ (fun a b hle hne => Nat.lt_of_le_of_ne hle hne) hne

theorem nodup_of_pairwise_lt (h : held.Pairwise fun a b => a.1 < b.1) : (held.map (·.1)).Nodup :=
  List.pairwise_map.mpr (h.imp Nat.ne_of_lt)

theorem sorted_eq_self (h : held.Pairwise fun a b => a.1 < b.1) : sorted held = held :=
  List.mergeSort_of_pairwise (h.imp fun hlt => decide_eq_true hlt.le)

/-- The order that entries come in does not show in the sorted ones. -/
theorem sorted_of_perm (h : (held.map (·.1)).Nodup) (hperm : held.Perm kept) :
    sorted held = sorted kept := by
  have hkept : (kept.map (·.1)).Nodup := ((hperm.map _).nodup_iff).mp h
  refine List.Perm.eq_of_pairwise ?_ (sorted_pairwise_lt h) (sorted_pairwise_lt hkept)
    ((sorted_perm held).trans (hperm.trans (sorted_perm kept).symm))
  intro a b _ _ hab hba
  omega

/-! ### The last entry of each pool -/

theorem put_of_not_mem (h : e.1 ∉ held.map (·.1)) : put e held = held ++ [e] := by
  induction held with
  | nil => rfl
  | cons x held ih =>
    rw [List.map_cons, List.mem_cons, not_or] at h
    rw [put, if_neg (Ne.symm h.1), ih h.2, List.cons_append]

theorem map_fst_put_of_mem (h : e.1 ∈ held.map (·.1)) : (put e held).map (·.1) = held.map (·.1) := by
  induction held with
  | nil => cases h
  | cons x held ih =>
    rw [put]
    by_cases hx : x.1 = e.1
    · rw [if_pos hx, List.map_cons, List.map_cons, hx]
    · rw [if_neg hx, List.map_cons, List.map_cons, ih]
      exact (List.mem_cons.mp h).resolve_left (Ne.symm hx)

theorem nodup_put (e : Nat × Nat) (h : (held.map (·.1)).Nodup) : ((put e held).map (·.1)).Nodup := by
  by_cases he : e.1 ∈ held.map (·.1)
  · rwa [map_fst_put_of_mem he]
  · rw [put_of_not_mem he, List.map_append]
    exact List.nodup_append_comm.mp (List.nodup_cons.mpr ⟨he, h⟩)

theorem mem_put (h : (held.map (·.1)).Nodup) : x ∈ put e held ↔ x = e ∨ x ∈ held ∧ x.1 ≠ e.1 := by
  induction held with
  | nil => simp [put]
  | cons y held ih =>
    obtain ⟨hy, hheld⟩ := List.nodup_cons.mp h
    rw [put]
    by_cases hye : y.1 = e.1
    · -- No other entry of the pool comes after the one that is replaced.
      have hne : x ∈ held → x.1 ≠ e.1 := by
        intro hx hxe
        have hmem := List.mem_map_of_mem (f := (·.1)) hx
        rw [hxe, ← hye] at hmem
        exact hy hmem
      rw [if_pos hye, List.mem_cons, List.mem_cons]
      grind
    · rw [if_neg hye, List.mem_cons, ih hheld, List.mem_cons]
      grind

theorem mem_map_fst_put {id : Nat} :
    id ∈ (put e held).map (·.1) ↔ id = e.1 ∨ id ∈ held.map (·.1) := by
  by_cases he : e.1 ∈ held.map (·.1)
  · rw [map_fst_put_of_mem he]
    grind
  · rw [put_of_not_mem he, List.map_append, List.mem_append, or_comm]
    exact or_congr_left List.mem_singleton

theorem latest_concat (held : List (Nat × Nat)) (e : Nat × Nat) :
    latest (held ++ [e]) = put e (latest held) := by
  simp [latest, List.foldl_append]

theorem nodup_latest (held : List (Nat × Nat)) : ((latest held).map (·.1)).Nodup := by
  induction held using List.reverseRecOn with
  | nil => exact List.nodup_nil
  | append_singleton held e ih =>
    rw [latest_concat]
    exact nodup_put e ih

/-- Of several entries for a pool the last one counts. -/
theorem mem_latest : x ∈ latest held ↔ held.reverse.lookup x.1 = some x.2 := by
  induction held using List.reverseRecOn with
  | nil => simp [latest]
  | append_singleton held e ih =>
    rw [latest_concat, mem_put (nodup_latest held), ih, List.reverse_concat, List.lookup_cons]
    by_cases hx : x.1 = e.1
    · simp [hx, Prod.ext_iff, eq_comm]
    · have hne : x ≠ e := fun h => hx (congrArg Prod.fst h)
      simp [hne, hx, beq_eq_false_iff_ne.mpr hx]

theorem latest_eq_self (h : (held.map (·.1)).Nodup) : latest held = held := by
  induction held using List.reverseRecOn with
  | nil => rfl
  | append_singleton held e ih =>
    rw [List.map_append] at h
    obtain ⟨hheld, -, hdisjoint⟩ := List.nodup_append.mp h
    rw [latest_concat, ih hheld]
    exact put_of_not_mem fun hmem => hdisjoint _ hmem _ (List.mem_singleton.mpr rfl) rfl

theorem mem_map_fst_latest {id : Nat} : id ∈ (latest held).map (·.1) ↔ id ∈ held.map (·.1) := by
  induction held using List.reverseRecOn with
  | nil => rfl
  | append_singleton held e ih =>
    rw [latest_concat, mem_map_fst_put, ih, List.map_append, List.mem_append, or_comm]
    exact or_congr_right List.mem_singleton.symm

/-- Each pool that has entries has one that is kept. -/
theorem map_fst_latest_perm (held : List (Nat × Nat)) :
    ((latest held).map (·.1)).Perm (held.map (·.1)).dedup := by
  refine (List.perm_ext_iff_of_nodup (nodup_latest held) (List.nodup_dedup _)).mpr fun id => ?_
  rw [List.mem_dedup, mem_map_fst_latest]

theorem length_latest (held : List (Nat × Nat)) :
    (latest held).length = (held.map (·.1)).dedup.length := by
  rw [← (map_fst_latest_perm held).length_eq, List.length_map]

theorem length_latest_le (held : List (Nat × Nat)) : (latest held).length ≤ held.length := by
  rw [length_latest]
  exact (List.dedup_sublist _).length_le.trans (List.length_map _).le

/-- No entry is lost just if no pool stands twice. -/
theorem length_latest_eq_iff : (latest held).length = held.length ↔ (held.map (·.1)).Nodup := by
  constructor
  · intro h
    have hlen : (held.map (·.1)).dedup.length = (held.map (·.1)).length := by
      rw [← length_latest, h, List.length_map]
    rw [← (List.dedup_sublist _).eq_of_length hlen]
    exact List.nodup_dedup _
  · intro h
    rw [latest_eq_self h]

theorem mem_of_mem_latest (h : x ∈ latest held) : x ∈ held :=
  List.mem_reverse.mp (mem_of_lookup (mem_latest.mp h))

/-! ### Mappings -/

theorem insert_entries (e : Nat × Nat) (held : List (Nat × Nat)) :
    (entries held).insert (.int e.1) (.int e.2) = entries (put e held) := by
  induction held with
  | nil => rfl
  | cons x held ih =>
    show (if Value.sameScalar (.int x.1) (.int e.1) then _ else _) = _
    rw [Value.sameScalar_int, put]
    by_cases hx : x.1 = e.1
    · rw [if_pos hx, if_pos (by simp [hx]), hx]
      rfl
    · rw [if_neg hx, if_neg (by simp [hx])]
      exact congrArg (entry x :: ·) ih

/-- The mapping that entries make is that of the last ones. -/
theorem ofPairs_entries (held : List (Nat × Nat)) :
    Entries.ofPairs (entries held) = entries (latest held) := by
  induction held using List.reverseRecOn with
  | nil => rfl
  | append_singleton held e ih =>
    rw [latest_concat, ← insert_entries, ← ih]
    simp [Entries.ofPairs, entries, entry, List.foldl_append]

theorem entriesIn_entries :
    Value.entriesIn (entries held) (entries kept) = true ↔ ∀ e ∈ held, e ∈ kept := by
  induction held with
  | nil => exact iff_of_true rfl (List.forall_mem_nil _)
  | cons e held ih =>
    show ((entries kept).any (fun x => Value.sameScalar (.int e.1) x.1 &&
      Value.same (.int e.2) x.2) && Value.entriesIn (entries held) (entries kept)) = true ↔ _
    rw [Bool.and_eq_true, ih, List.forall_mem_cons]
    refine and_congr_left fun _ => ?_
    have heq (x : Nat × Nat) : (Value.sameScalar (.int e.1) (entry x).1 &&
        Value.same (.int e.2) (entry x).2) = true ↔ e = x := by
      show (Value.sameScalar (.int e.1) (.int x.1) && Value.sameScalar (.int e.2) (.int x.2)) = true ↔ _
      rw [Value.sameScalar_int, Value.sameScalar_int, Prod.ext_iff]
      simp
    rw [List.any_eq_true]
    constructor
    · rintro ⟨_, hx, hsame⟩
      obtain ⟨x, hx, rfl⟩ := List.mem_map.mp hx
      rwa [(heq x).mp hsame]
    · intro he
      exact ⟨entry e, List.mem_map_of_mem he, (heq e).mpr rfl⟩

/-- Mappings that have each pool once are equal just if they have the same entries, in any order. -/
theorem same_entries_iff (h : (held.map (·.1)).Nodup) :
    Value.same (.map (entries held)) (.map (entries kept)) = true ↔ held.Perm kept := by
  show ((entries held).length == (entries kept).length &&
    Value.entriesIn (entries held) (entries kept)) = true ↔ _
  rw [Bool.and_eq_true, beq_iff_eq, entriesIn_entries, entries, entries, List.length_map,
    List.length_map]
  constructor
  · rintro ⟨hlen, hsub⟩
    exact ((List.Nodup.of_map _ h).subperm hsub).perm_of_length_le hlen.ge
  · intro hperm
    exact ⟨hperm.length_eq, fun e he => hperm.mem_iff.mp he⟩

/-! ### On the wire -/

theorem shares_nodes :
    Catalog.shares.all isSound ∧ Catalog.shares.all isExact ∧ Catalog.shares.all isFlat :=
  Catalog.nodes_of_get (rfl : Catalog.get "get_shares" = .ok Catalog.shares)

theorem nat_of_layout {r : Rules} {v : Value} (h : Layout r u128 v data) :
    ∃ n : Nat, v = .int n ∧ n < 2 ^ 128 ∧ data = Bytes.ofNatLE 16 n :=
  natural_of_layout h

theorem layout_nat {n : Nat} (h : n < 2 ^ 128) :
    Layout .written u128 (.int n) (Bytes.ofNatLE 16 n) := by
  rw [← Bytes.ofIntLE_ofNat 16 n h]
  exact .integer ((Width.natural_range .w128 n).mpr ⟨n, rfl, h⟩)

/-- A record of the wire is that of an entry. -/
theorem record_of_layout {r : Rules} {v : Value} (h : Layout r Catalog.poolShares v data) :
    ∃ e : Nat × Nat, v = record e ∧ (e.1 < 2 ^ 128 ∧ e.2 < 2 ^ 128) ∧ data = entryWire e := by
  rcases h with - | - | - | - | - | - | - | - | - | hid
  rcases hid with - | ⟨hid, hshares⟩
  rcases hshares with - | ⟨hshares, ⟨⟩⟩
  obtain ⟨id, rfl, hsmall, rfl⟩ := nat_of_layout hid
  obtain ⟨n, rfl, hsmall', rfl⟩ := nat_of_layout hshares
  exact ⟨(id, n), rfl, ⟨hsmall, hsmall'⟩, by rw [entryWire, List.append_nil]⟩

theorem records_of_layout {r : Rules} {items : List Value}
    (h : LayoutItems r Catalog.poolShares items data) :
    ∃ held, items = records held ∧ Small held ∧ data = held.flatMap entryWire := by
  induction items generalizing data with
  | nil =>
    cases h
    exact ⟨[], rfl, List.forall_mem_nil _, rfl⟩
  | cons item items ih =>
    cases h with
    | cons head tail =>
      obtain ⟨e, rfl, he, rfl⟩ := record_of_layout head
      obtain ⟨held, rfl, hheld, rfl⟩ := ih tail
      exact ⟨e :: held, rfl, List.forall_mem_cons.mpr ⟨he, hheld⟩, rfl⟩

theorem layout_records (h : Small held) :
    LayoutItems .written Catalog.poolShares (records held) (held.flatMap entryWire) := by
  induction held with
  | nil => exact .nil _
  | cons e held ih =>
    obtain ⟨⟨hid, hn⟩, hheld⟩ := List.forall_mem_cons.mp h
    have hrecord : Layout .written Catalog.poolShares (record e)
        (Bytes.ofNatLE 16 e.1 ++ (Bytes.ofNatLE 16 e.2 ++ [])) :=
      .record (.cons (layout_nat hid) (.cons (layout_nat hn) .nil))
    rw [List.append_nil] at hrecord
    exact .cons hrecord (ih hheld)

theorem layout_wire (h : Small held) (hlen : held.length ≤ maxLength) :
    Layout .written Catalog.shares (.list (records held)) (wire held) := by
  have hfits : (records held).length ≤ maxLength := by rwa [records, List.length_map]
  have := Layout.vec (r := .written) hfits trivial (layout_records h)
  rwa [records, List.length_map] at this

theorem encode_records (h : Small held) (hlen : held.length ≤ maxLength) :
    Catalog.shares.encode (.list (records held)) = .ok (wire held) :=
  encode_of_layout shares_nodes.1 id (layout_wire h hlen)

/-- So many entries cannot be counted on the wire. -/
theorem encode_records_long (hlen : maxLength < held.length) :
    Catalog.shares.encode (.list (records held)) = .error (.mismatch [] (.tooLong held.length)) := by
  show (encodeLength (records held).length >>= _) = _
  rw [records, List.length_map, encodeLength, if_neg (Nat.not_le.mpr hlen)]
  rfl

theorem deserialize_wire (h : Small held) (hlen : held.length ≤ maxLength) :
    Catalog.shares.deserialize (wire held) = .ok (.list (records held)) :=
  deserialize_of_layout shares_nodes.1 shares_nodes.2.1 (layout_wire h hlen)

theorem wire_of_deserialize {v : Value} (h : Catalog.shares.deserialize data = .ok v) :
    ∃ held, v = .list (records held) ∧ Small held ∧ held.length ≤ maxLength ∧ data = wire held := by
  rcases layout_of_deserialize h with - | - | - | - | - | - | - | ⟨fits, -, hitems⟩
  obtain ⟨held, rfl, hsmall, rfl⟩ := records_of_layout hitems
  rw [records, List.length_map] at fits
  refine ⟨held, rfl, hsmall, fits, ?_⟩
  rw [wire, records, List.length_map]

theorem records_inj (h : records held = records kept) : held = kept := by
  refine List.map_injective_iff.mpr ?_ h
  rintro ⟨id, n⟩ ⟨id', n'⟩ heq
  simpa [record] using heq

/-- Different entries take different bytes. -/
theorem wire_inj (hheld : Small held) (hkept : Small kept) (hheld' : held.length ≤ maxLength)
    (hkept' : kept.length ≤ maxLength) (h : wire held = wire kept) : held = kept := by
  have hread := deserialize_wire hheld hheld'
  rw [h, deserialize_wire hkept hkept'] at hread
  exact (records_inj (Value.list.inj (Except.ok.inj hread))).symm

/-! ### Reading and writing -/

theorem ofValues_records (held : List (Nat × Nat)) : ofValues (records held) = .ok (entries held) := by
  induction held with
  | nil => rfl
  | cons e held ih =>
    show (ofValues (records held) >>= fun rest => pure (entry e :: rest)) = _
    rw [ih]
    rfl

theorem decode_of_deserialize (h : Catalog.shares.deserialize data = .ok (.list (records held))) :
    decode (.bytes data) = .ok (entries (latest held)) := by
  show ((Catalog.shares.deserialize data).mapError Error.decode >>= _) = _
  rw [h]
  show (ofValues (records held)).map Entries.ofPairs = _
  rw [ofValues_records, ← ofPairs_entries]
  rfl

theorem deserialize_of_decode {m : Entries} (h : decode (.bytes data) = .ok m) :
    ∃ held, Catalog.shares.deserialize data = .ok (.list (records held)) ∧
      m = entries (latest held) ∧ Small held ∧ held.length ≤ maxLength ∧ data = wire held := by
  obtain ⟨v, hv, -⟩ := bind_eq_ok.mp
    (show ((Catalog.shares.deserialize data).mapError Error.decode >>= _) = _ from h)
  have hread := mapError_eq_ok.mp hv
  obtain ⟨held, rfl, hrest⟩ := wire_of_deserialize hread
  rw [decode_of_deserialize hread] at h
  exact ⟨held, hread, (Except.ok.inj h).symm, hrest⟩

theorem byInteger?_entries (held : List (Nat × Nat)) :
    byInteger? (entries held) = some (held.map fun e => ((e.1 : Int), .int e.2)) := by
  induction held with
  | nil => rfl
  | cons e held ih =>
    show (byInteger? (entries held)).map _ = _
    rw [ih]
    rfl

theorem inOrder_entries (held : List (Nat × Nat)) :
    inOrder (entries held) = .ok (entries (sorted held)) := by
  have hsorted : ((held.map fun e => ((e.1 : Int), Value.int e.2)).mergeSort fun a b => a.1 ≤ b.1) =
      (sorted held).map fun e => ((e.1 : Int), Value.int e.2) := by
    refine (List.map_mergeSort fun a _ b _ => ?_).symm
    simp
  unfold inOrder
  rw [byInteger?_entries]
  dsimp only
  rw [hsorted, List.map_map]
  rfl

theorem encode_entries (held : List (Nat × Nat)) : encode (entries held) =
    (Catalog.shares.encode (.list (records (sorted held)))).mapError .encode := by
  unfold encode
  rw [inOrder_entries]
  show (Catalog.shares.encode (.list ((entries (sorted held)).map _))).mapError Error.encode = _
  rw [entries, List.map_map]
  rfl

/-- A mapping is written as its entries in the order of their pools. -/
theorem encode_entries_of_small (h : Small held) (hlen : held.length ≤ maxLength) :
    encode (entries held) = .ok (wire (sorted held)) := by
  rw [← length_sorted held] at hlen
  rw [encode_entries, encode_records (small_sorted h) hlen]
  rfl

theorem encode_entries_of_long (hlen : maxLength < held.length) : encode (entries held) =
    .error (.encode (.mismatch [] (.tooLong held.length))) := by
  rw [← length_sorted held] at hlen ⊢
  rw [encode_entries, encode_records_long hlen]
  rfl

/-! ### Bytes that are restored -/

/-- What is read is the last entry of each pool, and is written again in some bytes that are read alike.
They are the bytes it was read from just if the entries there rise from pool to pool; and no entry was
lost just if no pool stands there twice. -/
theorem restored_iff {m : Entries} (h : decode (.bytes data) = .ok m) :
    ∃ held kept, Catalog.shares.deserialize data = .ok (.list (records held)) ∧ m = entries kept ∧
      (∀ e, e ∈ kept ↔ held.reverse.lookup e.1 = some e.2) ∧ (kept.map (·.1)).Nodup ∧
      (∃ data', encode m = .ok data' ∧ ∃ m', decode (.bytes data') = .ok m' ∧ m'.Perm m) ∧
      (encode m = .ok data ↔ held.Pairwise fun a b => a.1 < b.1) ∧
      (kept.length = held.length ↔ (held.map (·.1)).Nodup) := by
  obtain ⟨held, hread, rfl, hsmall, hlen, rfl⟩ := deserialize_of_decode h
  have hkept : Small (latest held) := fun e he => hsmall e (mem_of_mem_latest he)
  have hkept' : (latest held).length ≤ maxLength := (length_latest_le held).trans hlen
  have hsorted' : (sorted (latest held)).length ≤ maxLength := by rwa [length_sorted]
  have hwritten := encode_entries_of_small hkept hkept'
  refine ⟨held, latest held, hread, rfl, fun e => mem_latest, nodup_latest held, ?_, ?_,
    length_latest_eq_iff⟩
  · have hagain := decode_of_deserialize (deserialize_wire (small_sorted hkept) hsorted')
    rw [latest_eq_self (nodup_sorted (nodup_latest held))] at hagain
    exact ⟨_, hwritten, _, hagain, (sorted_perm _).map entry⟩
  · rw [hwritten, Except.ok.injEq]
    constructor
    · intro heq
      rw [← wire_inj (small_sorted hkept) hsmall hsorted' hlen heq]
      exact sorted_pairwise_lt (nodup_latest held)
    · intro hrising
      rw [latest_eq_self (nodup_of_pairwise_lt hrising), sorted_eq_self hrising]

/-- Two pools, the lesser one first. -/
theorem restored_iff_two : ∃ m, decode (.bytes (wire [(1, 2), (5, 1)])) = .ok m ∧
    encode m = .ok (wire [(1, 2), (5, 1)]) := by
  have hread := deserialize_wire (show Small [(1, 2), (5, 1)] by decide) (by decide)
  have hdecode := decode_of_deserialize hread
  obtain ⟨held, _, hheld, -, -, -, -, hiff, -⟩ := restored_iff hdecode
  obtain rfl := records_inj (Value.list.inj (Except.ok.inj (hread.symm.trans hheld)))
  exact ⟨_, hdecode, hiff.mpr (by decide)⟩

/-- Of two entries for one pool the first is lost, and two pools in falling order change places. -/
theorem repeated_not_restored :
    decode (.bytes (wire [(7, 1), (7, 2)])) = .ok [(.int 7, .int 2)] ∧
      encode [(.int 7, .int 2)] = .ok (wire [(7, 2)]) ∧ wire [(7, 2)] ≠ wire [(7, 1), (7, 2)] ∧
    decode (.bytes (wire [(5, 1), (1, 2)])) = .ok [(.int 5, .int 1), (.int 1, .int 2)] ∧
      encode [(.int 5, .int 1), (.int 1, .int 2)] = .ok (wire [(1, 2), (5, 1)]) ∧
      wire [(1, 2), (5, 1)] ≠ wire [(5, 1), (1, 2)] := by
  have hrising : sorted [(5, 1), (1, 2)] = [(1, 2), (5, 1)] :=
    (sorted_of_perm (by decide) (.swap _ _ [])).trans (sorted_eq_self (by decide))
  have hone : sorted [(7, 2)] = [(7, 2)] := sorted_eq_self (by decide)
  have hwritten := encode_entries_of_small (show Small [(7, 2)] by decide) (by decide)
  have hwritten' := encode_entries_of_small (show Small [(5, 1), (1, 2)] by decide) (by decide)
  rw [hone] at hwritten
  rw [hrising] at hwritten'
  exact ⟨decode_of_deserialize (deserialize_wire (by decide) (by decide)), hwritten, by decide,
    decode_of_deserialize (deserialize_wire (by decide) (by decide)), hwritten', by decide⟩

/-! ### Mappings that are written -/

/-- Pools, each once, with the shares held of them. -/
structure Holdings where
  held : List (Nat × Nat)
  once : (held.map (·.1)).Nodup
  small : Small held

namespace Holdings

def mapping (m : Holdings) : Entries := entries m.held

theorem encode_of_fits (m : Holdings) (hlen : m.held.length ≤ maxLength) :
    encode m.mapping = .ok (wire (sorted m.held)) := encode_entries_of_small m.small hlen

theorem fits_of_encode {m : Holdings} (h : encode m.mapping = .ok data) :
    m.held.length ≤ maxLength := by
  by_contra hlong
  rw [mapping, encode_entries_of_long (Nat.not_le.mp hlong)] at h
  cases h

theorem encode_of_perm {m m' : Holdings} (h : m.held.Perm m'.held) :
    encode m.mapping = encode m'.mapping := by
  rw [mapping, mapping, encode_entries, encode_entries, sorted_of_perm m.once h]

/-- The bytes tell all entries. -/
theorem perm_of_encode {m m' : Holdings} (h : encode m.mapping = .ok data)
    (h' : encode m'.mapping = .ok data) : m.held.Perm m'.held := by
  have hlen := fits_of_encode h
  have hlen' := fits_of_encode h'
  rw [encode_of_fits m hlen] at h
  rw [encode_of_fits m' hlen'] at h'
  rw [← length_sorted] at hlen hlen'
  have hsorted := wire_inj (small_sorted m.small) (small_sorted m'.small) hlen hlen'
    (Except.ok.inj (h.trans h'.symm))
  exact (sorted_perm m.held).symm.trans (hsorted ▸ sorted_perm m'.held)

end Holdings

/-- A mapping is written if its entries can be counted, in the order of its pools, and read back as one
that is equal. It does not count in which order it came by its entries, and the same bytes are written
for just the mappings that are equal. -/
theorem written_in_order (m m' : Holdings) :
    (m.held.length ≤ 2 ^ 32 - 1 → ∃ listed : List (Nat × Nat), encode m.mapping = .ok (wire listed) ∧
      Catalog.shares.deserialize (wire listed) = .ok (.list (records listed)) ∧
      listed.Perm m.held ∧ (listed.Pairwise fun a b => a.1 < b.1) ∧
      decode (.bytes (wire listed)) = .ok (entries listed) ∧
      Value.same (.map (entries listed)) (.map m.mapping) = true) ∧
    (2 ^ 32 - 1 < m.held.length →
      encode m.mapping = .error (.encode (.mismatch [] (.tooLong m.held.length)))) ∧
    (m.held.Perm m'.held → encode m.mapping = encode m'.mapping) ∧
    ∀ data, encode m.mapping = .ok data →
      (encode m'.mapping = .ok data ↔ Value.same (.map m.mapping) (.map m'.mapping) = true) := by
  refine ⟨fun hlen => ?_, encode_entries_of_long, Holdings.encode_of_perm, fun data h => ?_⟩
  · have hlen' : (sorted m.held).length ≤ maxLength := by rwa [length_sorted]
    have hread := deserialize_wire (small_sorted m.small) hlen'
    have hdecode := decode_of_deserialize hread
    rw [latest_eq_self (nodup_sorted m.once)] at hdecode
    exact ⟨_, m.encode_of_fits hlen, hread, sorted_perm m.held, sorted_pairwise_lt m.once, hdecode,
      (same_entries_iff (nodup_sorted m.once)).mpr (sorted_perm m.held)⟩
  · rw [Holdings.mapping, Holdings.mapping, same_entries_iff m.once]
    constructor
    · exact Holdings.perm_of_encode h
    · intro hperm
      exact (Holdings.encode_of_perm hperm).symm.trans h

/-- One mapping that came by its two entries in two orders. -/
theorem written_in_order_swapped : ∃ data, encode [(.int 5, .int 1), (.int 1, .int 2)] = .ok data ∧
    encode [(.int 1, .int 2), (.int 5, .int 1)] = .ok data ∧
    ∃ m, decode (.bytes data) = .ok m ∧
      Value.same (.map m) (.map [(.int 5, .int 1), (.int 1, .int 2)]) = true := by
  let m : Holdings := ⟨[(5, 1), (1, 2)], by decide, by decide⟩
  let m' : Holdings := ⟨[(1, 2), (5, 1)], by decide, by decide⟩
  obtain ⟨hwritten, -, hswap, -⟩ := written_in_order m m'
  obtain ⟨listed, hdata, -, -, -, hread, hsame⟩ := hwritten (by decide)
  exact ⟨_, hdata, (hswap (.swap _ _ [])).symm.trans hdata, _, hread, hsame⟩

/-- A truth value is not written, though it counts as a number and makes an equal mapping; and a mapping
may have more entries than can be counted. -/
theorem refused_though_equal :
    Value.toInt? (.bool true) = some 1 ∧
      Value.same (.map [(.int 1, .bool true)]) (.map [(.int 1, .int 1)]) = true ∧
      encode [(.int 1, .int 1)] = .ok (wire [(1, 1)]) ∧
      encode [(.int 1, .bool true)] =
        .error (.encode (.mismatch [.item 0, .name "shares"] (.integer "u128" .bool))) ∧
      encode (entries ((List.range (2 ^ 32)).map fun id => (id, 0))) =
        .error (.encode (.mismatch [] (.tooLong (2 ^ 32)))) := by
  have hone : sorted [(1, 1)] = [(1, 1)] := sorted_eq_self (by decide)
  have hwritten := encode_entries_of_small (show Small [(1, 1)] by decide) (by decide)
  rw [hone] at hwritten
  have hinOrder : inOrder [(.int 1, .bool true)] = .ok [(.int 1, .bool true)] := by
    unfold inOrder
    show Except.ok (([(1, Value.bool true)].mergeSort _).map _) = _
    rw [List.mergeSort_singleton]
    rfl
  have hmany : ((List.range (2 ^ 32)).map fun id => (id, 0)).length = 2 ^ 32 := by
    rw [List.length_map, List.length_range]
  have hlong := encode_entries_of_long (show maxLength < _ by rw [hmany]; decide)
  rw [hmany] at hlong
  refine ⟨rfl, rfl, hwritten, ?_, hlong⟩
  unfold encode
  rw [hinOrder]
  rfl

end Shares

end LedgerWire
