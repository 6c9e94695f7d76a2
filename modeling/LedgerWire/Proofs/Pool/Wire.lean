import LedgerWire.Pool.Wire
import LedgerWire.Proofs.Schema.Locality

/-!
# Pools come back field by field

A reader that `Projects` a schema takes bytes apart by the schema and keeps all that the value holds. So
what it reads is written again in the same bytes, and any bytes after these are refused. Pools are read
so alone, in lists and where there may be none.
-/

namespace LedgerWire

open Schema

/-! ### Readers that keep what is read -/

/-- What is read is written again in the bytes that it was read from, and with any more bytes behind them
it is refused for these. -/
def Restores {α : Type} (s : Schema) (read : Value → Except Error α) (toValue : α → Value) : Prop :=
  ∀ data a, read (.bytes data) = .ok a → s.encode (toValue a) = .ok data ∧ ∀ after, after ≠ [] →
    read (.bytes (data ++ after)) = .error (.decode (.trailing s.describe after.length))

/-- A reader keeps the values of a schema, each as something that gives the value again, and has no
faults of its own. -/
structure Projects {α : Type} (s : Schema) (read : Value → Except Error α) (toValue : α → Value) :
    Prop where
  ok {data : Bytes} {v : Value} (h : s.deserialize data = .ok v) :
    ∃ a, read (.bytes data) = .ok a ∧ toValue a = v
  error {data : Bytes} {e : DecodeError} (h : s.deserialize data = .error e) :
    read (.bytes data) = .error (.decode e)

namespace Projects

variable {α : Type} {s : Schema} {read : Value → Except Error α} {toValue : α → Value}
  {data : Bytes} {a : α}

/-- It is enough that each layout is viewed as what gives its value again. -/
theorem of_view {view : Value → Except Error α}
    (hread : ∀ data, read (.bytes data) = (s.deserialize data).mapError Error.decode >>= view)
    (hview : ∀ {v bs}, Layout .seen s v bs → ∃ a, view v = .ok a ∧ toValue a = v) :
    Projects s read toValue where
  ok {data v} h := by
    rw [hread, h]
    exact hview (layout_of_deserialize h)
  error {data e} h := by
    rw [hread, h]
    rfl

theorem deserialize (h : Projects s read toValue) (hread : read (.bytes data) = .ok a) :
    s.deserialize data = .ok (toValue a) := by
  cases hd : s.deserialize data with
  | error e =>
    rw [h.error hd] at hread
    cases hread
  | ok v =>
    obtain ⟨a', ha, rfl⟩ := h.ok hd
    cases ha.symm.trans hread
    rfl

theorem read_eq (h : Projects s read toValue) (hinj : Function.Injective toValue)
    (hd : s.deserialize data = .ok (toValue a)) : read (.bytes data) = .ok a := by
  obtain ⟨a', ha, heq⟩ := h.ok hd
  rw [ha, hinj heq]

theorem restores (h : Projects s read toValue) (hs : s.all isSound) (hf : s.all isFlat) :
    Restores s read toValue := by
  intro data a hread
  have hspan := h.deserialize hread
  have hwritten := reencodes_of_flat hs hf _ _ _ (deserialize_eq_ok.mp hspan)
  rw [List.take_length] at hwritten
  exact ⟨hwritten, fun after hne => h.error (deserialize_append hspan hne)⟩

end Projects

namespace Pool

/-! ### Pools of the wire -/

/-- A token as it is on the wire, with a byte for its decimal places. -/
def IsToken (token : Entries) (places : Nat) : Prop :=
  places < 256 ∧ ∃ symbol address : Text, token = [(.text "symbol", .text symbol),
    (.text "address", .text address), (.text "decimals", .int places)]

/-- An integer of 128 bits. -/
def IsAmount (n : Int) : Prop := 0 ≤ n ∧ n < 2 ^ 128

/-- A pool as it is on the wire. -/
structure IsWired (p : Pool) : Prop where
  id : IsAmount p.id
  token0 : ∃ places, IsToken p.token0 places
  token1 : ∃ places, IsToken p.token1 places
  reserve0 : IsAmount p.reserve0
  reserve1 : IsAmount p.reserve1
  totalShares : IsAmount p.totalShares

variable {r : Rules} {v : Value} {bs : Bytes}

theorem amount_of_layout (h : Layout r u128 v bs) : ∃ n : Int, v = .int n ∧ IsAmount n := by
  obtain ⟨n, rfl, hlt, -⟩ := natural_of_layout h
  have hlt : n < 2 ^ 128 := hlt
  exact ⟨n, rfl, Int.natCast_nonneg n, by exact_mod_cast hlt⟩

theorem text_of_layout (h : Layout r .text v bs) : ∃ t, v = .text t := by
  cases h with
  | text => exact ⟨_, rfl⟩

theorem token_of_layout (h : Layout r Catalog.token v bs) :
    ∃ token, v = .map token ∧ ∃ places, IsToken token places := by
  rcases h with - | - | - | - | - | - | - | - | - | hsymbol
  rcases hsymbol with - | ⟨hsymbol, haddress⟩
  rcases haddress with - | ⟨haddress, hplaces⟩
  rcases hplaces with - | ⟨hplaces, ⟨⟩⟩
  obtain ⟨symbol, rfl⟩ := text_of_layout hsymbol
  obtain ⟨address, rfl⟩ := text_of_layout haddress
  obtain ⟨places, rfl, hlt, -⟩ := natural_of_layout hplaces
  exact ⟨_, rfl, places, hlt, symbol, address, rfl⟩

/-- A layout holds just the fields of a pool, and none of them is changed. -/
theorem ofValue_of_layout (h : Layout r Catalog.pool v bs) :
    ∃ p, ofValue v = .ok p ∧ p.toValue = v ∧ p.IsWired := by
  rcases h with - | - | - | - | - | - | - | - | - | hid
  rcases hid with - | ⟨hid, htoken0⟩
  rcases htoken0 with - | ⟨htoken0, htoken1⟩
  rcases htoken1 with - | ⟨htoken1, hreserve0⟩
  rcases hreserve0 with - | ⟨hreserve0, hreserve1⟩
  rcases hreserve1 with - | ⟨hreserve1, hshares⟩
  rcases hshares with - | ⟨hshares, ⟨⟩⟩
  obtain ⟨id, rfl, wiredId⟩ := amount_of_layout hid
  obtain ⟨token0, rfl, wired0⟩ := token_of_layout htoken0
  obtain ⟨token1, rfl, wired1⟩ := token_of_layout htoken1
  obtain ⟨reserve0, rfl, wiredReserve0⟩ := amount_of_layout hreserve0
  obtain ⟨reserve1, rfl, wiredReserve1⟩ := amount_of_layout hreserve1
  obtain ⟨totalShares, rfl, wiredShares⟩ := amount_of_layout hshares
  exact ⟨⟨id, token0, token1, reserve0, reserve1, totalShares⟩, rfl, rfl,
    wiredId, wired0, wired1, wiredReserve0, wiredReserve1, wiredShares⟩

theorem ofValues_of_layout {records : List Value} (h : LayoutItems r Catalog.pool records bs) :
    ∃ ps, ofValues records = .ok ps ∧ ps.map toValue = records ∧ ∀ p ∈ ps, p.IsWired := by
  induction records generalizing bs with
  | nil => exact ⟨[], rfl, rfl, List.forall_mem_nil _⟩
  | cons record records ih =>
    rcases h with - | ⟨head, tail⟩
    obtain ⟨p, hp, rfl, hwired⟩ := ofValue_of_layout head
    obtain ⟨ps, hps, rfl, hall⟩ := ih tail
    refine ⟨p :: ps, ?_, rfl, List.forall_mem_cons.mpr ⟨hwired, hall⟩⟩
    show ((ofValue p.toValue).mapError Error.pool >>= fun first =>
      ofValues (ps.map toValue) >>= fun rest => pure (first :: rest)) = _
    rw [hp, hps]
    rfl

theorem layout_of_encode_token {token : Entries} {places : Nat} (htoken : IsToken token places)
    (h : Catalog.token.encode (.map token) = .ok bs) :
    Layout .written Catalog.token (.map token) bs := by
  obtain ⟨-, symbol, address, rfl⟩ := htoken
  obtain ⟨-, -, hfields⟩ := bind_eq_ok.mp h
  obtain ⟨_, hsymbol, _, hlater, rfl⟩ := (encodeFields_cons rfl).mp hfields
  obtain ⟨_, haddress, _, hlast, rfl⟩ := (encodeFields_cons rfl).mp hlater
  obtain ⟨_, hplaces, _, hnone, rfl⟩ := (encodeFields_cons rfl).mp hlast
  cases hnone
  obtain ⟨_, _, ⟨⟩, utf8, fits, rfl⟩ := encode_text.mp hsymbol
  obtain ⟨_, _, ⟨⟩, utf8', fits', rfl⟩ := encode_text.mp haddress
  obtain ⟨_, ⟨⟩, range, rfl⟩ := encode_integer.mp hplaces
  exact .record (.cons (.text utf8 fits) (.cons (.text utf8' fits') (.cons (.integer range) .nil)))

theorem layout_of_encode_amount {n : Int} (h : u128.encode (.int n) = .ok bs) :
    Layout r u128 (.int n) bs := by
  obtain ⟨_, ⟨⟩, range, rfl⟩ := encode_integer.mp h
  exact .integer range

/-- A pool with the tokens of the wire is written as a layout of itself. -/
theorem layout_of_encode_toValue {p : Pool} (htokens : (∃ places, IsToken p.token0 places) ∧
    ∃ places, IsToken p.token1 places) (h : Catalog.pool.encode p.toValue = .ok bs) :
    Layout .written Catalog.pool p.toValue bs := by
  obtain ⟨⟨_, wired0⟩, ⟨_, wired1⟩⟩ := htokens
  obtain ⟨-, -, hfields⟩ := bind_eq_ok.mp h
  obtain ⟨_, hid, _, htail0, rfl⟩ := (encodeFields_cons rfl).mp hfields
  obtain ⟨_, htoken0, _, htail1, rfl⟩ := (encodeFields_cons rfl).mp htail0
  obtain ⟨_, htoken1, _, htail2, rfl⟩ := (encodeFields_cons rfl).mp htail1
  obtain ⟨_, hreserve0, _, htail3, rfl⟩ := (encodeFields_cons rfl).mp htail2
  obtain ⟨_, hreserve1, _, htail4, rfl⟩ := (encodeFields_cons rfl).mp htail3
  obtain ⟨_, hshares, _, hnone, rfl⟩ := (encodeFields_cons rfl).mp htail4
  cases hnone
  exact .record (.cons (layout_of_encode_amount hid) (.cons (layout_of_encode_token wired0 htoken0)
    (.cons (layout_of_encode_token wired1 htoken1) (.cons (layout_of_encode_amount hreserve0)
      (.cons (layout_of_encode_amount hreserve1) (.cons (layout_of_encode_amount hshares) .nil))))))

/-! ### Readers of pools -/

/-- A pool was read from bytes, in one of the three forms. -/
inductive IsDecoded : Pool → Prop
  | alone {data : Bytes} {p : Pool} (h : decode (.bytes data) = .ok p) : IsDecoded p
  | listed {data : Bytes} {ps : List Pool} {p : Pool} (h : decodeList (.bytes data) = .ok ps)
    (mem : p ∈ ps) : IsDecoded p
  | found {data : Bytes} {p : Pool} (h : decodeOptional (.bytes data) = .ok (some p)) : IsDecoded p

/-- The value of a pool, or none. -/
def toValue? : Option Pool → Value
  | none => .none
  | some p => p.toValue

theorem projects_decode : Projects Catalog.pool decode toValue := by
  refine .of_view (fun _ => rfl) fun h => ?_
  obtain ⟨p, hp, hvalue, -⟩ := ofValue_of_layout h
  exact ⟨p, mapError_eq_ok.mpr hp, hvalue⟩

theorem projects_decodeList : Projects Catalog.pools decodeList fun ps => .list (ps.map toValue) := by
  refine .of_view (fun _ => rfl) fun h => ?_
  rcases h with - | - | - | - | - | - | - | ⟨-, -, hrecords⟩
  obtain ⟨ps, hps, rfl, -⟩ := ofValues_of_layout hrecords
  exact ⟨ps, hps, rfl⟩

theorem projects_decodeOptional : Projects Catalog.optionalPool decodeOptional toValue? := by
  refine .of_view (fun _ => rfl) fun h => ?_
  rcases h with - | - | - | - | - | - | ⟨-, hpool⟩
  · exact ⟨none, rfl, rfl⟩
  · obtain ⟨p, hp, rfl, -⟩ := ofValue_of_layout hpool
    refine ⟨some p, ?_, rfl⟩
    show ((ofValue p.toValue).map some).mapError Error.pool = _
    rw [hp]
    rfl

theorem toValue_injective : Function.Injective toValue := by
  rintro ⟨id, token0, token1, reserve0, reserve1, totalShares⟩
    ⟨id', token0', token1', reserve0', reserve1', totalShares'⟩ h
  simpa [toValue] using h

theorem list_toValue_injective :
    Function.Injective fun ps : List Pool => Value.list (ps.map toValue) :=
  fun _ _ h => List.map_injective_iff.mpr toValue_injective (Value.list.inj h)

theorem toValue?_injective : Function.Injective toValue? := by
  intro found found' h
  cases found with
  | none =>
    cases found' with
    | none => rfl
    | some p => cases h
  | some p =>
    cases found' with
    | none => cases h
    | some q => rw [toValue_injective h]

/-- Numbers of a pool that was read have the sizes that they have on the wire. -/
theorem IsDecoded.isWired {p : Pool} (h : p.IsDecoded) : p.IsWired := by
  cases h with
  | alone h =>
    obtain ⟨q, -, hq, hwired⟩ :=
      ofValue_of_layout (layout_of_deserialize (projects_decode.deserialize h))
    rwa [← toValue_injective hq]
  | @listed _ ps _ h mem =>
    have hlayout := layout_of_deserialize (projects_decodeList.deserialize h)
    rcases hlayout with - | - | - | - | - | - | - | ⟨-, -, hrecords⟩
    obtain ⟨qs, -, hqs, hwired⟩ := ofValues_of_layout hrecords
    obtain rfl := List.map_injective_iff.mpr toValue_injective hqs
    exact hwired p mem
  | found h =>
    have hlayout := layout_of_deserialize (projects_decodeOptional.deserialize h)
    rcases hlayout with - | - | - | - | - | - | ⟨-, hpool⟩
    obtain ⟨q, -, hq, hwired⟩ := ofValue_of_layout hpool
    rwa [← toValue_injective hq]

theorem pool_nodes :
    Catalog.pool.all isSound ∧ Catalog.pool.all isExact ∧ Catalog.pool.all isFlat :=
  Catalog.nodes_of_get (rfl : Catalog.get "pool" = .ok Catalog.pool)

theorem pools_nodes :
    Catalog.pools.all isSound ∧ Catalog.pools.all isExact ∧ Catalog.pools.all isFlat :=
  Catalog.nodes_of_get (rfl : Catalog.get "get_pools" = .ok Catalog.pools)

theorem optionalPool_nodes : Catalog.optionalPool.all isSound ∧ Catalog.optionalPool.all isExact ∧
    Catalog.optionalPool.all isFlat :=
  Catalog.nodes_of_get (rfl : Catalog.get "get_pool" = .ok Catalog.optionalPool)

/-- There is no pool in just the one byte that says so. -/
theorem decodeOptional_eq_none {data : Bytes} : decodeOptional (.bytes data) = .ok none ↔ data = [0] := by
  constructor
  · intro h
    have hrestores := projects_decodeOptional.restores optionalPool_nodes.1 optionalPool_nodes.2.2
    have hwritten := (hrestores data none h).1
    exact (Except.ok.inj (encode_option_none.symm.trans hwritten)).symm
  · rintro rfl
    rfl

/-- Pools that are read, alone, in a list or where there may be none, are written again in the same
bytes, and more bytes are refused. -/
theorem pools_restored :
    Restores Catalog.pool decode toValue ∧
      Restores Catalog.pools decodeList (fun ps => .list (ps.map toValue)) ∧
      Restores Catalog.optionalPool decodeOptional toValue? ∧
      ∀ data, decodeOptional (.bytes data) = .ok none ↔ data = [0] :=
  ⟨projects_decode.restores pool_nodes.1 pool_nodes.2.2,
    projects_decodeList.restores pools_nodes.1 pools_nodes.2.2,
    projects_decodeOptional.restores optionalPool_nodes.1 optionalPool_nodes.2.2,
    fun _ => decodeOptional_eq_none⟩

/-- A pool whose two sides differ. -/
def uneven : Pool where
  id := 3
  token0 := [(.text "symbol", .text "A"), (.text "address", .text "a"), (.text "decimals", .int 18)]
  token1 := [(.text "symbol", .text "B"), (.text "address", .text "b"), (.text "decimals", .int 6)]
  reserve0 := 300
  reserve1 := 20000
  totalShares := 1414

theorem exists_decode_uneven : ∃ data, decode (.bytes data) = .ok uneven ∧
    decodeList (.bytes (2 :: 0 :: 0 :: 0 :: (data ++ data))) = .ok [uneven, uneven] ∧
    decodeOptional (.bytes (1 :: data)) = .ok (some uneven) := by
  obtain ⟨data, hdata⟩ : ∃ data, Catalog.pool.encode uneven.toValue = .ok data := ⟨_, rfl⟩
  have hpool : Layout .written Catalog.pool uneven.toValue data := layout_of_encode_toValue
    ⟨⟨18, by decide, _, _, rfl⟩, ⟨6, by decide, _, _, rfl⟩⟩ hdata
  have hpools : Layout .written Catalog.pools (.list [uneven.toValue, uneven.toValue])
      (2 :: 0 :: 0 :: 0 :: (data ++ data)) := by
    have := Layout.vec (r := .written) (by decide) trivial (.cons hpool (.cons hpool (.nil _)))
    rwa [List.append_nil] at this
  exact ⟨data,
    projects_decode.read_eq toValue_injective
      (deserialize_of_layout pool_nodes.1 pool_nodes.2.1 hpool),
    projects_decodeList.read_eq list_toValue_injective
      (deserialize_of_layout pools_nodes.1 pools_nodes.2.1 hpools),
    projects_decodeOptional.read_eq toValue?_injective
      (deserialize_of_layout optionalPool_nodes.1 optionalPool_nodes.2.1 (.some nofun hpool))⟩

theorem pools_restored_uneven : ∃ data : Bytes,
    (decode (.bytes data) = .ok uneven ∧ Catalog.pool.encode uneven.toValue = .ok data ∧
      decode (.bytes (data ++ [7])) = .error (.decode (.trailing Catalog.pool.describe 1))) ∧
    (decodeList (.bytes (2 :: 0 :: 0 :: 0 :: (data ++ data))) = .ok [uneven, uneven] ∧
      Catalog.pools.encode (.list [uneven.toValue, uneven.toValue]) =
        .ok (2 :: 0 :: 0 :: 0 :: (data ++ data))) ∧
    (decodeOptional (.bytes (1 :: data)) = .ok (some uneven) ∧
      Catalog.optionalPool.encode uneven.toValue = .ok (1 :: data)) ∧
    decodeOptional (.bytes [0]) = .ok none := by
  obtain ⟨hone, hlist, hoptional, hnone⟩ := pools_restored
  obtain ⟨data, halone, hlisted, hfound⟩ := exists_decode_uneven
  obtain ⟨hwritten, hmore⟩ := hone data uneven halone
  exact ⟨data, ⟨halone, hwritten, hmore [7] (List.cons_ne_nil _ _)⟩,
    ⟨hlisted, (hlist _ _ hlisted).1⟩, ⟨hfound, (hoptional _ _ hfound).1⟩, (hnone [0]).mpr rfl⟩

end Pool

end LedgerWire
