import LedgerWire.Proofs.Envelope
import LedgerWire.Proofs.Session
import Mathlib

/-!
# Calls that spend what the configuration says

The check of the limits and the encoder of an envelope ask for the same ranges, so a configuration that
was read with integers for its limits serves every call that leaves them open. The only calls of the
catalogue that fail are those with arguments that are too long.
-/

namespace LedgerWire

/-! ### The check of the limits -/

@[simp] theorem Value.ask_int (m n : Int) :
    Value.ask .lessOrEqual (.int m) (.int n) = .ok (decide (m ≤ n)) := by
  show (.ok (compare m n != .gt) : Except Value.Incomparable Bool) = _
  congr 1
  rw [Bool.eq_iff_iff, bne_iff_ne, decide_eq_true_iff, ne_eq, compare_gt_iff_gt, not_lt]

namespace SpendingConfig

@[simp] theorem inRange_int (limit n : Int) :
    inRange limit (.int n) = .ok (decide (0 ≤ n ∧ n ≤ limit)) := by
  show ((Value.ask .lessOrEqual (.int 0) (.int n)).mapError ConfigFault.incomparable >>= fun low =>
    if low then (Value.ask .lessOrEqual (.int n) (.int limit)).mapError .incomparable
    else pure false) = _
  rw [Value.ask_int, Value.ask_int]
  by_cases hn : 0 ≤ n
  · rw [decide_eq_true hn]
    exact congrArg Except.ok (by simp [hn])
  · rw [decide_eq_false hn]
    exact congrArg Except.ok (by simp [hn])

theorem check_eq_ok {c : SpendingConfig} : c.check = .ok () ↔
    inRange (2 ^ 64 - 1) c.gas = .ok true ∧ inRange (2 ^ 128 - 1) c.deposit = .ok true := by
  unfold check
  cases hgas : inRange (2 ^ 64 - 1) c.gas with
  | error fault => exact iff_of_false nofun fun h => nomatch h.1
  | ok low =>
    cases low with
    | false => exact iff_of_false nofun fun h => nomatch h.1
    | true =>
      cases hdeposit : inRange (2 ^ 128 - 1) c.deposit with
      | error fault => exact iff_of_false nofun fun h => nomatch h.2
      | ok low =>
        cases low with
        | false => exact iff_of_false nofun fun h => nomatch h.2
        | true => exact iff_of_true rfl ⟨rfl, rfl⟩

end SpendingConfig

namespace Config

/-! ### What was read -/

variable {c : Config} {j : Json} {t : Text}

/-- A configuration is read section by section, and its limits have passed their check. -/
theorem ofJson_eq_ok : ofJson j = .ok c ↔ ∃ members rpc spending logging, j = .object members ∧
    sectionMembers .rpc members = .ok rpc ∧
    assignAll .rpc RpcConfig.assign rpc default.rpc = .ok c.rpc ∧
    sectionMembers .spending members = .ok spending ∧
    assignAll .spending SpendingConfig.assign spending default.spending = .ok c.spending ∧
    c.spending.check = .ok () ∧
    sectionMembers .logging members = .ok logging ∧
    assignAll .logging LoggingConfig.assign logging default.logging = .ok c.logging := by
  cases j with
  | object members =>
    simp only [ofJson, bind_eq_ok, pure_def, Except.ok.injEq, Json.object.injEq]
    constructor
    · rintro ⟨rpc, hrpc, r, hr, spending, hspending, s, hs, ⟨⟩, hcheck, logging, hlogging, l, hl, rfl⟩
      exact ⟨members, rpc, spending, logging, rfl, hrpc, hr, hspending, hs, hcheck, hlogging, hl⟩
    · rintro ⟨_, rpc, spending, logging, rfl, hrpc, hr, hspending, hs, hcheck, hlogging, hl⟩
      exact ⟨rpc, hrpc, _, hr, spending, hspending, _, hs, (), hcheck, logging, hlogging, _, hl, rfl⟩
  | _ => exact iff_of_false (by rintro ⟨⟩) (by simp)

theorem parse_eq_ok : parse t = .ok c ↔
    ∃ j, Json.parse (unifyNewlines t) = .ok j ∧ ofJson j = .ok c := by
  simp [parse]

theorem parse_of_document (hlines : unifyNewlines t = t) (h : Json.document t = .ok j) :
    parse t = ofJson j := by
  rw [parse, hlines, Json.parse, h]
  rfl

theorem check_of_parse (h : parse t = .ok c) : c.spending.check = .ok () := by
  obtain ⟨j, -, hj⟩ := parse_eq_ok.mp h
  obtain ⟨_, _, _, _, -, -, -, -, -, hcheck, -⟩ := ofJson_eq_ok.mp hj
  exact hcheck

/-- Integers that were read as limits are limits that an envelope has room for. -/
theorem spends_of_parse (h : parse t = .ok c) {gas deposit : Int} (hgas : c.spending.gas = .int gas)
    (hdeposit : c.spending.deposit = .int deposit) :
    ∃ m n : Nat, gas = m ∧ deposit = n ∧ c.Spends ⟨.none, .none⟩ m n := by
  obtain ⟨hlow, hhigh⟩ := SpendingConfig.check_eq_ok.mp (check_of_parse h)
  rw [hgas, SpendingConfig.inRange_int, Except.ok.injEq, decide_eq_true_iff] at hlow
  rw [hdeposit, SpendingConfig.inRange_int, Except.ok.injEq, decide_eq_true_iff] at hhigh
  obtain ⟨m, rfl⟩ := Int.eq_ofNat_of_zero_le hlow.1
  obtain ⟨n, rfl⟩ := Int.eq_ofNat_of_zero_le hhigh.1
  exact ⟨m, n, rfl, rfl, .inr ⟨rfl, hgas⟩, .inr ⟨rfl, hdeposit⟩, by omega, by omega⟩

/-! ### Calls under it -/

theorem step_call_eq_ok (r : Request) (given : Spending) {data : Bytes} :
    Session.step c (.request r given) = (.ok (.bytes data), c) ↔ r.encode c given = .ok data := by
  show ((r.encode c given).map Session.Answer.bytes, c) = _ ↔ _
  rw [Prod.mk.injEq, and_iff_left rfl, map_eq_ok]
  simp

/-- Once a configuration is active that was read with integers for its limits, a call of a method of the
catalogue that leaves them open is answered with an envelope, unless its arguments are too long; and the
envelope holds the limits of the configuration. -/
theorem open_limits_are_spent (t : Text) (c : Config) (h : parse t = .ok c) (gas deposit : Int)
    (hgas : c.spending.gas = .int gas) (hdeposit : c.spending.deposit = .int deposit) :
    (∀ active, Session.step active (.load t) = (.ok (.config c), c)) ∧
      ∀ method s args body, Catalog.argsOf (.text method) = .ok s → s.encode args = .ok body →
        ((∃ data, Session.step c (.request (.call (.text method) args (.value .none))
            ⟨.none, .none⟩) = (.ok (.bytes data), c)) ↔ body.length ≤ 2 ^ 32 - 1) ∧
        ∀ data, Session.step c (.request (.call (.text method) args (.value .none))
            ⟨.none, .none⟩) = (.ok (.bytes data), c) →
          Envelope.decode (.bytes data) = .ok ⟨.text method, body, .int gas, .int deposit⟩ := by
  obtain ⟨m, n, rfl, rfl, hspend⟩ := spends_of_parse h hgas hdeposit
  refine ⟨Session.step_load_ok h, fun method s args body hs hargs => ?_⟩
  have hschema := Envelope.argsSchema_of_argsOf hs
  obtain ⟨name, hname, hlen⟩ := Envelope.encode_of_argsOf hs
  have hok (data : Bytes) : Session.step c (.request (.call (.text method) args (.value .none))
      ⟨.none, .none⟩) = (.ok (.bytes data), c) ↔ _ :=
    (step_call_eq_ok _ _).trans (encodeCall_eq_ok hschema hargs hspend)
  simp only [hok]
  constructor
  · constructor
    · rintro ⟨_, _, -, -, hbody, -⟩
      exact hbody
    · intro hbody
      exact ⟨_, name, hname, hlen, hbody, rfl⟩
  · rintro _ ⟨name', hname', hlen', hbody, rfl⟩
    exact Envelope.decode_wire hname' hlen' hbody hspend.gas_lt hspend.deposit_lt

/-- A document that sets one limit: the other is that of the default. -/
theorem open_limits_are_spent_deposit :
    ∃ c data, parse "\x7b\"transaction\": \x7b\"default_deposit\": 9\x7d\x7d" = .ok c ∧
      Session.step c (.request (.call (.text "get_pool") (.int 7) (.value .none))
        ⟨.none, .none⟩) = (.ok (.bytes data), c) ∧
      Envelope.decode (.bytes data) =
        .ok ⟨.text "get_pool", Bytes.ofIntLE 16 7, .int 300000, .int 9⟩ := by
  let c : Config := { default with spending := ⟨.int 300000, .int 9⟩ }
  have hread : Json.document "\x7b\"transaction\": \x7b\"default_deposit\": 9\x7d\x7d" =
      .ok (.object [("transaction", .object [("default_deposit", .int 9)])]) := by cbv
  have hparse : parse "\x7b\"transaction\": \x7b\"default_deposit\": 9\x7d\x7d" = .ok c :=
    (parse_of_document (by decide +kernel) hread).trans
      (ofJson_eq_ok.mpr ⟨_, _, _, _, rfl, rfl, rfl, rfl, rfl, rfl, rfl, rfl⟩)
  obtain ⟨-, hcall⟩ := open_limits_are_spent _ c hparse 300000 9 rfl rfl
  obtain ⟨hok, hdecode⟩ := hcall "get_pool" Schema.u128 (.int 7) (Bytes.ofIntLE 16 7) rfl rfl
  obtain ⟨data, hdata⟩ := hok.mpr (by decide)
  exact ⟨c, data, hparse, hdata, hdecode data hdata⟩

/-- A limit that was read as a truth value is refused in every call, though it passes for a number in
range; and with the limits of the default, arguments that their schema takes are refused once they are
longer than what a length can say. -/
theorem open_limits_refused :
    (∃ c, parse "\x7b\"transaction\": \x7b\"default_gas\": true\x7d\x7d" = .ok c ∧
      Catalog.argsOf (.text "get_pool") = .ok Schema.u128 ∧
      Schema.u128.encode (.int 7) = .ok (Bytes.ofIntLE 16 7) ∧
      Session.step c (.request (.call (.text "get_pool") (.int 7) (.value .none)) ⟨.none, .none⟩) =
        (.error (.encode (.mismatch [.name "gas"] (.integer "u64" .bool))), c)) ∧
    parse "\x7b\x7d" = .ok default ∧ Catalog.argsOf (.text "init") = .ok Catalog.initArgs ∧
      ∃ body, Catalog.initArgs.encode (.bytes (List.replicate maxLength 0)) = .ok body ∧
        ∀ data, Session.step default (.request (.call (.text "init")
          (.bytes (List.replicate maxLength 0)) (.value .none)) ⟨.none, .none⟩) ≠
            (.ok (.bytes data), default) := by
  let c : Config := { default with spending := ⟨.bool true, .int 0⟩ }
  have hread : Json.document "\x7b\"transaction\": \x7b\"default_gas\": true\x7d\x7d" =
      .ok (.object [("transaction", .object [("default_gas", .bool true)])]) := by cbv
  have hparse : parse "\x7b\"transaction\": \x7b\"default_gas\": true\x7d\x7d" = .ok c :=
    (parse_of_document (by decide +kernel) hread).trans
      (ofJson_eq_ok.mpr ⟨_, _, _, _, rfl, rfl, rfl, rfl, rfl, rfl, rfl, rfl⟩)
  have hinit := encode_initArgs (Nat.le_of_eq (List.length_replicate (n := maxLength) (a := 0)))
  have hspend : default.Spends ⟨.none, .none⟩ 300000 0 :=
    ⟨.inr ⟨rfl, rfl⟩, .inr ⟨rfl, rfl⟩, by decide, by decide⟩
  refine ⟨⟨c, hparse, rfl, rfl, rfl⟩, rfl, rfl, _, hinit, fun data h => ?_⟩
  refine encodeCall_ne_ok_of_args rfl hinit hspend ?_ data ((step_call_eq_ok _ _).mp h)
  simp [lengthSize]

end Config

end LedgerWire
