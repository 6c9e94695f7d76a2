import LedgerWire.Amm.Contract
import LedgerWire.Proofs.Schema.Canonical
import LedgerWire.Proofs.Text.Lowercase

/-!
# Names of accounts

A name is judged by its lowercase form. No code point beyond ASCII is written in lowercase as a letter
of ASCII, but for the Kelvin sign. So a name is accepted just if it has between one and sixty-four
symbols and each is a letter, a digit or a permitted mark of ASCII, or the Kelvin sign.
-/

namespace LedgerWire

namespace CodePoint

/-- A letter or a digit of ASCII, or one of the marks `_`, `-` and `.`. -/
def IsNameSymbol (c : CodePoint) : Prop :=
  (65 ≤ c.val ∧ c.val ≤ 90) ∨ (97 ≤ c.val ∧ c.val ≤ 122) ∨ (48 ≤ c.val ∧ c.val ≤ 57) ∨
    c.val = 0x5F ∨ c.val = 0x2D ∨ c.val = 0x2E

theorem isAccountSymbol_iff {c : CodePoint} :
    c.isAccountSymbol ↔ c.IsNameSymbol ∧ ¬ (65 ≤ c.val ∧ c.val ≤ 90) := by
  unfold isAccountSymbol IsNameSymbol
  simp only [Bool.or_eq_true, Bool.and_eq_true, decide_eq_true_eq, beq_iff_eq]
  omega

theorem isAccountSymbol_small {c : CodePoint} : c.small.isAccountSymbol ↔ c.IsNameSymbol := by
  rw [isAccountSymbol_iff]
  unfold IsNameSymbol
  rw [val_small]
  split_ifs <;> omega

/-- The forms that a name may have are those of letters, digits and marks of ASCII, and of the Kelvin
sign. -/
theorem all_lowercase_iff (c : CodePoint) :
    c.lowercase.all isAccountSymbol ↔ c.IsNameSymbol ∨ c = kelvin := by
  obtain ⟨form, hform⟩ : ∃ form, c.lowercase = form := ⟨_, rfl⟩
  have hlowers := lowers c
  rw [hform] at hlowers ⊢
  cases hlowers with
  | ascii h =>
    have hne : c ≠ kelvin := by
      rintro rfl
      exact absurd h (by decide)
    rw [List.all_cons, List.all_nil, Bool.and_true, isAccountSymbol_small]
    exact (or_iff_left hne).symm
  | kelvin h => exact iff_of_true (by decide) (.inr h)
  | dotted h =>
    refine iff_of_false (by decide) (not_or.mpr ⟨?_, ?_⟩)
    · unfold IsNameSymbol
      omega
    · rintro rfl
      exact absurd h (by decide)
  | foreign hc hd hk =>
    rw [List.all_cons, List.all_nil, Bool.and_true, isAccountSymbol_iff]
    unfold IsNameSymbol
    exact iff_of_false (by omega) (not_or.mpr ⟨by omega, hk⟩)

end CodePoint

namespace Text

theorem all_lowercase_symbols (t : Text) : (lowercase t).all CodePoint.isAccountSymbol ↔
    ∀ c ∈ t, c.IsNameSymbol ∨ c = CodePoint.kelvin := by
  have hsigma : CodePoint.isAccountSymbol CodePoint.finalSigma =
      CodePoint.capitalSigma.lowercase.all CodePoint.isAccountSymbol := by decide +kernel
  rw [lowercase, all_lowercaseAfter hsigma, List.all_eq_true]
  simp only [CodePoint.all_lowercase_iff]

end Text

/-! ### What is accepted -/

namespace AccountName

/-- One to sixty-four symbols, each of ASCII or the Kelvin sign. -/
def Admits (t : Text) : Prop :=
  1 ≤ t.length ∧ t.length ≤ 64 ∧ ∀ c ∈ t, c.IsNameSymbol ∨ c = CodePoint.kelvin

variable {t : Text}

theorem fault?_eq_none : fault? t = none ↔ Admits t := by
  unfold fault? Admits
  rw [← Text.all_lowercase_symbols]
  by_cases hlong : maxLength < t.length
  · rw [if_pos hlong]
    refine iff_of_false nofun fun h => ?_
    exact absurd h.2.1 (Nat.not_le.mpr hlong)
  · have hshort : t.length ≤ 64 := Nat.not_lt.mp hlong
    rw [if_neg hlong]
    cases t with
    | nil => exact iff_of_false nofun fun h => absurd h.1 (Nat.not_succ_le_zero 0)
    | cons c t =>
      have hpos : 1 ≤ (c :: t).length := Nat.succ_pos t.length
      have hempty : ¬ (c :: t).isEmpty = true := Bool.false_ne_true
      rw [if_neg hempty]
      by_cases hsymbols : (Text.lowercase (c :: t)).all CodePoint.isAccountSymbol = true
      · exact iff_of_true (if_neg (by rw [hsymbols]; decide)) ⟨hpos, hshort, hsymbols⟩
      · rw [if_pos (by rw [Bool.eq_false_iff.mpr hsymbols]; rfl)]
        exact iff_of_false nofun fun h => hsymbols h.2.2

theorem fault?_mem {fault : AccountFault} (h : fault? t = some fault) :
    fault ∈ [AccountFault.tooLong, .empty, .symbols] := by
  unfold fault? at h
  by_cases hlong : maxLength < t.length
  · rw [if_pos hlong] at h
    cases h
    simp
  · rw [if_neg hlong] at h
    by_cases hempty : t.isEmpty = true
    · rw [if_pos hempty] at h
      cases h
      simp
    · rw [if_neg hempty] at h
      split at h
      · cases h
        simp
      · cases h

theorem ofText_eq (t : Text) :
    (∃ name, ofText t = .ok name ∧ name.text = t ∧ fault? t = none) ∨
      ∃ fault, ofText t = .error fault ∧ fault? t = some fault := by
  unfold ofText
  split
  · next h => exact .inl ⟨_, rfl, rfl, h⟩
  · next fault h => exact .inr ⟨fault, rfl, h⟩

end AccountName

namespace Account

variable {t : Text} {data : Bytes}

/-- The value of an account that carries a name. -/
def nameEntry (t : Text) : Value := .map [(.text "multivm", .text t)]

theorem ofName_eq_ok {account : Account} : ofName (.text t) = .ok account ↔
    ∃ name : AccountName, name.text = t ∧ account = .named name := by
  have hmap : ofName (.text t) = (AccountName.ofText t).map .named := rfl
  rw [hmap, map_eq_ok]
  constructor
  · rintro ⟨name, hname, rfl⟩
    obtain ⟨name', hname', htext, -⟩ | ⟨fault, hfault, -⟩ := AccountName.ofText_eq t
    · rw [hname] at hname'
      cases hname'
      exact ⟨name, htext, rfl⟩
    · rw [hname] at hfault
      cases hfault
  · rintro ⟨name, rfl, rfl⟩
    obtain ⟨name', hname', htext, -⟩ | ⟨fault, -, hfault⟩ := AccountName.ofText_eq name.text
    · obtain ⟨text, accepted⟩ := name
      obtain ⟨text', accepted'⟩ := name'
      cases htext
      exact ⟨_, hname', rfl⟩
    · rw [name.accepted] at hfault
      cases hfault

/-- A name that is read is judged like one that is given. -/
theorem decode_nameEntry (h : Catalog.accountId.deserialize data = .ok (nameEntry t)) :
    decode (.bytes data) = (ofName (.text t)).mapError .account := by
  have hread : (Candidate.schema Catalog.accountId).deserialize (.bytes data) =
      (Catalog.accountId.deserialize data).mapError .decode := rfl
  unfold decode
  rw [hread, h]
  rfl

/-- A text is the name of an account just if it has one to sixty-four symbols, each a letter, a digit
or a mark of ASCII or the Kelvin sign. The account carries the text as it is, any other text is refused
as a name, and it is the same where the name is read from the bytes of an account. -/
theorem named_iff_admits (t : Text) :
    ((∃ account, ofName (.text t) = .ok account) ↔ AccountName.Admits t) ∧
      (∀ account, ofName (.text t) = .ok account → account.toValue = nameEntry t) ∧
      (¬ AccountName.Admits t → ∃ fault ∈ [AccountFault.tooLong, .empty, .symbols],
        ofName (.text t) = .error fault) ∧
      ∀ data, Catalog.accountId.deserialize data = .ok (nameEntry t) →
        decode (.bytes data) = (ofName (.text t)).mapError .account := by
  refine ⟨?_, ?_, ?_, fun data => decode_nameEntry⟩
  · rw [← AccountName.fault?_eq_none]
    constructor
    · rintro ⟨account, h⟩
      obtain ⟨name, rfl, -⟩ := ofName_eq_ok.mp h
      exact name.accepted
    · intro h
      exact ⟨.named ⟨t, h⟩, ofName_eq_ok.mpr ⟨⟨t, h⟩, rfl, rfl⟩⟩
  · intro account h
    obtain ⟨name, rfl, rfl⟩ := ofName_eq_ok.mp h
    rfl
  · intro h
    obtain ⟨-, -, -, haccepted⟩ | ⟨fault, hfault, hwhy⟩ := AccountName.ofText_eq t
    · exact absurd (AccountName.fault?_eq_none.mp haccepted) h
    · have hname : ofName (.text t) = (AccountName.ofText t).map .named := rfl
      refine ⟨fault, AccountName.fault?_mem hwhy, ?_⟩
      rw [hname, hfault]
      rfl

/-- An exclamation mark is refused, as a name that is given and as a name that is read. -/
theorem named_iff_admits_bang :
    (∃ fault ∈ [AccountFault.tooLong, .empty, .symbols], ofName (.text "a!") = .error fault) ∧
      decode (.bytes [0, 2, 0, 0, 0, 0x61, 0x21]) = (ofName (.text "a!")).mapError .account := by
  have hbad : ¬ AccountName.Admits "a!" := by
    rintro ⟨-, -, h⟩
    have hmark : ¬ (CodePoint.ofChar '!').IsNameSymbol := by
      unfold CodePoint.IsNameSymbol
      decide
    rcases h (CodePoint.ofChar '!') (by decide) with hname | hkelvin
    · exact hmark hname
    · exact absurd hkelvin (by decide)
  obtain ⟨-, -, hrefused, hread⟩ := named_iff_admits "a!"
  exact ⟨hrefused hbad, hread _ rfl⟩

theorem admits_kelvin : AccountName.Admits [CodePoint.kelvin] :=
  ⟨by decide, by decide, fun _ h => .inr (List.mem_singleton.mp h)⟩

/-- The Kelvin sign is accepted as a name and read as one, though it is no symbol of ASCII. -/
theorem kelvin_accepted :
    (∃ account, ofName (.text [CodePoint.kelvin]) = .ok account) ∧
      (∃ account, decode (.bytes [0, 3, 0, 0, 0, 0xE2, 0x84, 0xAA]) = .ok account) ∧
      ¬ CodePoint.kelvin.IsNameSymbol := by
  have hfault := AccountName.fault?_eq_none.mpr admits_kelvin
  have hname : ofName (.text [CodePoint.kelvin]) = .ok (.named ⟨[CodePoint.kelvin], hfault⟩) :=
    ofName_eq_ok.mpr ⟨_, rfl, rfl⟩
  have hbytes : Catalog.accountId.deserialize [0, 3, 0, 0, 0, 0xE2, 0x84, 0xAA] =
      .ok (nameEntry [CodePoint.kelvin]) := rfl
  have hread := decode_nameEntry hbytes
  rw [hname] at hread
  refine ⟨⟨_, hname⟩, ⟨_, hread⟩, ?_⟩
  unfold CodePoint.IsNameSymbol
  decide

end Account

end LedgerWire
