import LedgerWire.Proofs.Config.Defaults
import LedgerWire.Proofs.Json.Document

/-!
# Configurations that were saved

A configuration that was read from a file holds values of documents that files can hold. It is written
as such a document, of three sections with all their settings, and reading that gives every setting the
value that it had.
-/

namespace LedgerWire

/-! ### Documents as values -/

namespace Json

mutual

theorem toJson?_toValue : ∀ j : Json, j.toValue.toJson? = some j
  | .null | .bool _ | .int _ | .float _ | .text _ => rfl
  | .list items => congrArg (Option.map Json.list) (toJsonItems?_toValues items)
  | .object members => congrArg (Option.map Json.object) (toJsonMembers?_toEntries members)

theorem toJsonItems?_toValues : ∀ items : List Json, Value.toJsonItems? (toValues items) = some items
  | [] => rfl
  | item :: items => by
    rw [toValues, Value.toJsonItems?, toJson?_toValue item, toJsonItems?_toValues items]
    rfl

theorem toJsonMembers?_toEntries : ∀ members : List (Text × Json),
    Value.toJsonMembers? (toEntries members) = some members
  | [] => rfl
  | (name, value) :: members => by
    rw [toEntries, Value.toJsonMembers?, toJson?_toValue value, toJsonMembers?_toEntries members]
    rfl

end

instance (t : Text) : Decidable (Joined t) := inferInstanceAs (Decidable (List.IsChain _ t))

theorem ProperMembers.of_member? {name : Text} {value : Json} {members : List (Text × Json)}
    (h : ProperMembers members) (hvalue : member? name members = some value) : Proper value := by
  induction members with
  | nil => cases hvalue
  | cons member members ih =>
    obtain ⟨-, hproper, -, hrest⟩ := h
    unfold member? at hvalue
    split at hvalue
    · obtain rfl := Option.some.inj hvalue
      exact hproper
    · exact ih hrest hvalue

end Json

/-- The value of a document that a file can hold. -/
def Value.Stored (v : Value) : Prop := ∃ j : Json, j.Proper ∧ j.toValue = v

namespace Config

/-! ### The lines of a file -/

theorem unifyNewlines_eq {t : Text} (h : ∀ c ∈ t, c.val ≠ 0x0D) : unifyNewlines t = t := by
  induction t with
  | nil => rfl
  | cons c t ih =>
    obtain ⟨hc, ht⟩ := List.forall_mem_cons.mp h
    rw [unifyNewlines.eq_def]
    dsimp only
    rw [if_pos hc, ih ht]

theorem mem_unifyNewlines {t : Text} {c : CodePoint} (h : c ∈ unifyNewlines t) :
    c ∈ t ∨ c = Json.newline := by
  fun_induction unifyNewlines t with
  | case1 => exact .inl h
  | case2 d t _ ih =>
    rcases List.mem_cons.mp h with rfl | h
    · exact .inl List.mem_cons_self
    · exact (ih h).imp_left (List.mem_cons_of_mem d)
  | case3 d _ => exact .inr (List.mem_singleton.mp h)
  | case4 d _ e t _ ih =>
    rcases List.mem_cons.mp h with rfl | h
    · exact .inr rfl
    · exact (ih h).imp_left fun h => List.mem_cons_of_mem d (List.mem_cons_of_mem e h)
  | case5 d _ e t _ ih =>
    rcases List.mem_cons.mp h with rfl | h
    · exact .inr rfl
    · exact (ih h).imp_left (List.mem_cons_of_mem d)

theorem scalar_unifyNewlines {t : Text} (h : Json.Scalar t) : Json.Scalar (unifyNewlines t) := by
  intro c hc
  rcases mem_unifyNewlines hc with hc | rfl
  · exact h c hc
  · rfl

/-! ### Settings -/

/-- What every setting keeps that is assigned holds when all are assigned. -/
theorem assignAll_keeps {α : Type} {part : ConfigSection} {assign : Text → Value → α → Option α}
    {keeps : α → Prop}
    (hassign : ∀ {key value a a'}, value.Stored → assign key value a = some a' → keeps a → keeps a')
    {settings : List (Text × Json)} (hsettings : Json.ProperMembers settings) {a a' : α}
    (h : assignAll part assign settings a = .ok a') (ha : keeps a) : keeps a' := by
  induction settings generalizing a with
  | nil =>
    cases h
    exact ha
  | cons setting settings ih =>
    obtain ⟨-, hproper, -, hrest⟩ := hsettings
    unfold assignAll at h
    split at h
    · next hsome => exact ih hrest h (hassign ⟨_, hproper, rfl⟩ hsome ha)
    · cases h

theorem properMembers_section {part : ConfigSection} {members settings : List (Text × Json)}
    (hmembers : Json.ProperMembers members) (h : sectionMembers part members = .ok settings) :
    Json.ProperMembers settings := by
  unfold sectionMembers at h
  split at h
  · cases h
    trivial
  · next hmember =>
    cases h
    exact hmembers.of_member? hmember
  · cases h

end Config

/-- Every setting has the value of a document that a file can hold. -/
def RpcConfig.Stored (c : RpcConfig) : Prop := c.url.Stored ∧ c.timeout.Stored

def SpendingConfig.Stored (c : SpendingConfig) : Prop := c.gas.Stored ∧ c.deposit.Stored

def LoggingConfig.Stored (c : LoggingConfig) : Prop := c.level.Stored ∧ c.format.Stored

section Assign

variable {key : Text} {value : Value}

theorem RpcConfig.stored_assign {c c' : RpcConfig} (hvalue : value.Stored)
    (h : c.assign key value = some c') (hc : c.Stored) : c'.Stored := by
  unfold assign at h
  split_ifs at h <;> cases h
  · exact ⟨hvalue, hc.2⟩
  · exact ⟨hc.1, hvalue⟩

theorem SpendingConfig.stored_assign {c c' : SpendingConfig} (hvalue : value.Stored)
    (h : c.assign key value = some c') (hc : c.Stored) : c'.Stored := by
  unfold assign at h
  split_ifs at h <;> cases h
  · exact ⟨hvalue, hc.2⟩
  · exact ⟨hc.1, hvalue⟩

theorem LoggingConfig.stored_assign {c c' : LoggingConfig} (hvalue : value.Stored)
    (h : c.assign key value = some c') (hc : c.Stored) : c'.Stored := by
  unfold assign at h
  split_ifs at h <;> cases h
  · exact ⟨hvalue, hc.2⟩
  · exact ⟨hc.1, hvalue⟩

end Assign

namespace Config

variable {c : Config}

theorem stored_default :
    default.rpc.Stored ∧ default.spending.Stored ∧ default.logging.Stored := by
  have htext (t : Text) (ht : Json.Joined t) : (Value.text t).Stored := ⟨.text t, ht, rfl⟩
  exact ⟨⟨htext _ (by decide), .float _, trivial, rfl⟩, ⟨⟨.int _, trivial, rfl⟩, .int _, trivial, rfl⟩,
    htext _ (by decide), htext _ (by decide)⟩

/-- Every setting that was read has the value of a document that a file can hold. -/
theorem stored_of_ofJson {j : Json} (hj : j.Proper) (h : ofJson j = .ok c) :
    c.rpc.Stored ∧ c.spending.Stored ∧ c.logging.Stored := by
  obtain ⟨members, rpc, spending, logging, rfl, hrpc, hr, hspending, hs, -, hlogging, hl⟩ :=
    ofJson_eq_ok.mp h
  obtain ⟨hdr, hds, hdl⟩ := stored_default
  exact ⟨assignAll_keeps RpcConfig.stored_assign (properMembers_section hj hrpc) hr hdr,
    assignAll_keeps SpendingConfig.stored_assign (properMembers_section hj hspending) hs hds,
    assignAll_keeps LoggingConfig.stored_assign (properMembers_section hj hlogging) hl hdl⟩

/-! ### The document of a configuration -/

theorem proper_section {key key' : Text} {value value' : Json}
    (hkeys : Json.Joined key ∧ Json.Joined key') (hne : key' ≠ key) (hvalue : value.Proper)
    (hvalue' : value'.Proper) :
    (Json.object [(key, value), (key', value')]).Proper :=
  ⟨hkeys.1, hvalue, List.forall_mem_singleton.mpr hne, hkeys.2, hvalue', List.forall_mem_nil _, trivial⟩

/-- A configuration whose settings have documents is that of one document, and is read from it. -/
theorem exists_document (hrpc : c.rpc.Stored) (hspending : c.spending.Stored)
    (hlogging : c.logging.Stored) (hcheck : c.spending.check = .ok ()) :
    ∃ j : Json, j.Proper ∧ j.toValue = c.toValue ∧ ofJson j = .ok c := by
  obtain ⟨⟨url, timeout⟩, ⟨gas, deposit⟩, ⟨level, format⟩⟩ := c
  obtain ⟨⟨url, hurl, rfl⟩, timeout, htimeout, rfl⟩ := hrpc
  obtain ⟨⟨gas, hgas, rfl⟩, deposit, hdeposit, rfl⟩ := hspending
  obtain ⟨⟨level, hlevel, rfl⟩, format, hformat, rfl⟩ := hlogging
  have hnames : Text.ofString "transaction" ≠ "rpc" ∧ Text.ofString "logging" ≠ "rpc" ∧
      Text.ofString "logging" ≠ "transaction" := by decide
  refine ⟨.object [("rpc", .object [("url", url), ("timeout", timeout)]),
    ("transaction", .object [("default_gas", gas), ("default_deposit", deposit)]),
    ("logging", .object [("level", level), ("format", format)])], ?_, rfl, ?_⟩
  · refine ⟨by decide, proper_section (by decide) (by decide) hurl htimeout, ?_,
      by decide, proper_section (by decide) (by decide) hgas hdeposit, ?_,
      by decide, proper_section (by decide) (by decide) hlevel hformat, List.forall_mem_nil _, trivial⟩
    · exact List.forall_mem_cons.mpr ⟨hnames.1, List.forall_mem_singleton.mpr hnames.2.1⟩
    · exact List.forall_mem_singleton.mpr hnames.2.2
  · exact ofJson_eq_ok.mpr ⟨_, _, _, _, rfl, rfl, rfl, rfl, rfl, hcheck, rfl, rfl⟩

/-- The text of a document is read back whatever the ends of its lines are. -/
theorem parse_render {j : Json} (hj : j.Proper) : parse j.render = ofJson j :=
  parse_of_document (unifyNewlines_eq fun c hc => by
    rcases Json.allPlain_renderAt 0 j c hc with h | h <;> omega) (Json.document_render hj)

/-- What was written in ASCII is stored as it is. -/
theorem stored_text {t : Text} (h : Json.AllPlain t) : ∃ bytes, Utf8.encode t = .ok bytes ∧
    Utf8.decode bytes = .ok t := by
  have hencode : Utf8.encode t = .ok (t.flatMap Utf8.encodeOne) := by
    refine Utf8.encode_eq_ok.mpr ⟨fun c hc => ?_, rfl⟩
    have hplain := h c hc
    simp only [CodePoint.isSurrogate, Bool.and_eq_false_iff, decide_eq_false_iff_not]
    rcases hplain with h | h <;> omega
  exact ⟨_, hencode, Utf8.decode_encode hencode⟩

/-- A configuration that was read from a file is written, the text that it is written as can be stored
in a file, and the same configuration is read from that again: so it is written as the same text. -/
theorem saved_reads_back (file : Bytes) (t : Text) (c : Config) (hfile : Utf8.decode file = .ok t)
    (h : parse t = .ok c) : ∃ saved stored, c.render? = some saved ∧
      Utf8.encode saved = .ok stored ∧ Utf8.decode stored = .ok saved ∧ parse saved = .ok c := by
  have ht : Json.Scalar t := (Utf8.encode_eq_ok.mp (Utf8.encode_decode hfile)).1
  obtain ⟨j, hparse, hj⟩ := parse_eq_ok.mp h
  have hproper := Json.proper_of_document (scalar_unifyNewlines ht) (mapError_eq_ok.mp hparse)
  obtain ⟨hrpc, hspending, hlogging⟩ := stored_of_ofJson hproper hj
  obtain ⟨j', hproper', hvalue, hread⟩ := exists_document hrpc hspending hlogging (check_of_parse h)
  obtain ⟨stored, hencode, hdecode⟩ := stored_text (Json.allPlain_renderAt 0 j')
  refine ⟨j'.render, stored, ?_, hencode, hdecode, (parse_render hproper').trans hread⟩
  rw [render?, ← hvalue, Json.toJson?_toValue]
  rfl

/-- A name twice, a lone surrogate, a negative zero and no number. -/
def nestedText : Text :=
  "\x7b\"rpc\": \x7b\"url\": [\"\\ud800\", \x7b\"a\": 1, \"a\": -0.0\x7d], \"timeout\": NaN\x7d\x7d"

def nestedDocument : Json :=
  .object [("rpc", .object [("url", .list [.text [CodePoint.ofNat 0xD800],
    .object [("a", .float (.zero true))]]), ("timeout", .float .nan)])]

theorem saved_reads_back_nested : ∃ (file : Bytes) (c : Config) (saved : Text),
    Utf8.decode file = .ok nestedText ∧
    c.rpc = ⟨.list [.text [CodePoint.ofNat 0xD800], .map [(.text "a", .float (.zero true))]],
      .float .nan⟩ ∧
    c.render? = some saved ∧ parse saved = .ok c := by
  have hencode := Utf8.encode_eq_ok.mpr ⟨Utf8.surrogateRun?_eq_none.mp
    (show Utf8.surrogateRun? 0 nestedText = none by decide +kernel), rfl⟩
  have hread : Json.document nestedText = .ok nestedDocument := by cbv
  have hparse := parse_of_document (by decide +kernel) hread
  have hconfig : ofJson nestedDocument = .ok { default with rpc := ⟨.list
      [.text [CodePoint.ofNat 0xD800], .map [(.text "a", .float (.zero true))]], .float .nan⟩ } :=
    ofJson_eq_ok.mpr ⟨_, _, _, _, rfl, rfl, rfl, rfl, rfl, rfl, rfl, rfl⟩
  obtain ⟨saved, _, hsaved, -, -, hagain⟩ :=
    saved_reads_back _ _ _ (Utf8.decode_encode hencode) (hparse.trans hconfig)
  exact ⟨_, _, saved, Utf8.decode_encode hencode, rfl, hsaved, hagain⟩

end Config

end LedgerWire
