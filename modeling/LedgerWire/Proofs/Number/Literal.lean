import LedgerWire.Proofs.Json.Number
import LedgerWire.Proofs.Number.Rounding
import Mathlib.Data.List.TakeWhile
import Mathlib.Data.Nat.Digits.Defs

/-!
# Decimal literals

A literal has a sign, digits with a point among them and a power of ten; sign, point and power may be
missing. A text spells it with blanks around, underscores anywhere and the digits of any script. Reading
a text as a decimal takes the literals, as far as their exponents go, and the words for infinity.
-/

namespace LedgerWire

namespace Decimal

/-! ### Literals -/

/-- A power of ten: the case of its letter, its sign and its digits. -/
structure Power where
  capital : Bool
  sign : Option Bool
  digits : List (Fin 10)
  ne_nil : digits ≠ []

/-- A sign is true for a minus. Without a point there is no fraction, not even an empty one. -/
structure Literal where
  sign : Option Bool
  whole : List (Fin 10)
  fraction : Option (List (Fin 10))
  power : Option Power
  some_digit : whole ++ fraction.getD [] ≠ []

def digitMark (d : Fin 10) : CodePoint := CodePoint.ofNat (48 + d)

def digitText (ds : List (Fin 10)) : Text := ds.map digitMark

def signText : Option Bool → Text
  | none => []
  | some true => "-"
  | some false => "+"

/-- The number of some digits, the greatest first. -/
def numberOf (ds : List (Fin 10)) : Nat := Nat.ofDigits 10 (ds.reverse.map Fin.val)

def powerText : Option Power → Text
  | none => []
  | some p => CodePoint.ofChar (if p.capital then 'E' else 'e') :: (signText p.sign ++ digitText p.digits)

def powerValue : Option Power → ℤ
  | none => 0
  | some p => if p.sign = some true then -(numberOf p.digits : ℤ) else numberOf p.digits

def fractionText : Option (List (Fin 10)) → Text
  | none => []
  | some ds => CodePoint.ofChar '.' :: digitText ds

namespace Literal

variable (l : Literal)

/-- The digits on both sides of the point. -/
def digits : List (Fin 10) := l.whole ++ l.fraction.getD []

def unsigned : Text := digitText l.whole ++ (fractionText l.fraction ++ powerText l.power)

def text : Text := signText l.sign ++ l.unsigned

/-- The number of a literal, with the place of its last digit. -/
def decimal : Decimal :=
  ⟨l.sign == some true, numberOf l.digits, powerValue l.power - (l.fraction.getD []).length⟩

end Literal

/-- The exponents of the number are such as a decimal may have. -/
structure InRange (x : Decimal) : Prop where
  first : x.adjusted ≤ DecimalValue.maxAdjusted
  last : DecimalValue.minLast ≤ x.exponent

/-- A code point is one of ASCII or a digit of any script in place of that of ASCII. -/
def StandsFor (c a : CodePoint) : Prop := c = a ∨ ∃ d : Fin 10, c.digitValue? = some d.val ∧ a = digitMark d

/-- A text is one of ASCII, but for blanks around it, underscores and the script of its digits. -/
def Reads (t s : Text) : Prop :=
  ∃ before core after, t = before ++ (core ++ after) ∧ (∀ c ∈ before, c.isBlank = true) ∧
    (∀ c ∈ after, c.isBlank = true) ∧ List.Forall₂ StandsFor (core.filter (·.val ≠ 0x5F)) s

def Spells (t : Text) (l : Literal) : Prop := Reads t l.text

/-- A word for infinity, in any letter case and with a sign or without. -/
def SpellsInfinity (negative : Bool) (t : Text) : Prop :=
  ∃ sign word, Reads t (signText sign ++ word) ∧ (sign == some true) = negative ∧
    (word.map DecimalValue.lower = "inf" ∨ word.map DecimalValue.lower = "infinity")

/-! ### Digits -/

open DecimalValue (isDigit ofDigits lower)

variable {t s : Text} {c a : CodePoint} {ds : List (Fin 10)}

theorem isDigit_iff : isDigit c = true ↔ 48 ≤ c.val ∧ c.val ≤ 57 := by
  rw [isDigit, Bool.and_eq_true, decide_eq_true_eq, decide_eq_true_eq]

theorem isDigit_digitMark : ∀ d : Fin 10, isDigit (digitMark d) = true := by decide

theorem forall_isDigit (ds : List (Fin 10)) : ∀ c ∈ digitText ds, isDigit c = true := by
  intro c hc
  obtain ⟨d, -, rfl⟩ := List.mem_map.mp hc
  exact isDigit_digitMark d

theorem numberOf_append (ds : List (Fin 10)) (d : Fin 10) :
    numberOf (ds ++ [d]) = 10 * numberOf ds + d := by
  rw [numberOf, List.reverse_append, List.reverse_singleton, List.singleton_append, List.map_cons,
    Nat.ofDigits_cons, Nat.add_comm, numberOf]

theorem ofDigits_digitText (ds : List (Fin 10)) : ofDigits (digitText ds) = numberOf ds := by
  have hvalue : ∀ d : Fin 10, (digitMark d).val - 48 = d := by decide
  induction ds using List.reverseRecOn with
  | nil => rfl
  | append_singleton ds d ih =>
    rw [numberOf_append, ← ih, ← hvalue d, digitText, List.map_append, ofDigits, List.foldl_append]
    rfl

theorem numberOf_cons (d : Fin 10) (ds : List (Fin 10)) :
    numberOf (d :: ds) = numberOf ds + 10 ^ ds.length * d := by
  rw [numberOf, List.reverse_cons, List.map_append, Nat.ofDigits_append, List.length_map,
    List.length_reverse, List.map_singleton, Nat.ofDigits_singleton, numberOf]

theorem numberOf_lt_length (ds : List (Fin 10)) : numberOf ds < 10 ^ ds.length := by
  have hlt := Nat.ofDigits_lt_base_pow_length (b := 10) (l := ds.reverse.map Fin.val) (by decide)
    fun d hd => by
      obtain ⟨e, -, rfl⟩ := List.mem_map.mp hd
      exact e.isLt
  rwa [List.length_map, List.length_reverse] at hlt

/-- Zeros in front do not count. -/
theorem numberOf_lt (ds : List (Fin 10)) : numberOf ds < 10 ^ (ds.dropWhile (· = 0)).length := by
  induction ds with
  | nil => exact numberOf_lt_length []
  | cons d ds ih =>
    by_cases hd : d = 0
    · subst hd
      rw [List.dropWhile_cons_of_pos (by decide), numberOf_cons]
      exact ih
    · rw [List.dropWhile_cons_of_neg (by rwa [decide_eq_true_eq])]
      exact numberOf_lt_length _

/-- Digits of ASCII only are the text of some digits. -/
theorem exists_digitText (h : ∀ c ∈ t, isDigit c = true) : ∃ ds, digitText ds = t := by
  induction t with
  | nil => exact ⟨[], rfl⟩
  | cons c t ih =>
    obtain ⟨ds, rfl⟩ := ih fun d hd => h d (List.mem_cons_of_mem c hd)
    have hc := isDigit_iff.mp (h c List.mem_cons_self)
    have hmark : digitMark ⟨c.val - 48, by omega⟩ = c := by
      have hval : 48 + (c.val - 48) = c.val := by omega
      rw [digitMark, hval, CodePoint.ofNat_val]
    exact ⟨⟨c.val - 48, by omega⟩ :: ds, by rw [digitText, List.map_cons, hmark]; rfl⟩

/-! ### Signs and powers -/

/-- What follows a sign does not begin with another one. -/
theorem signed_text (sign : Option Bool) (h : ∀ c ∈ t.head?, c.val ≠ 0x2D ∧ c.val ≠ 0x2B) :
    DecimalValue.signed (signText sign ++ t) = (sign == some true, t) := by
  match sign with
  | some true => rfl
  | some false => rfl
  | none =>
    cases t with
    | nil => rfl
    | cons c t =>
      obtain ⟨h1, h2⟩ := h c rfl
      show DecimalValue.signed (c :: t) = _
      rw [DecimalValue.signed, if_neg h1, if_neg h2]
      rfl

theorem exists_signText (t : Text) : ∃ sign s, t = signText sign ++ s ∧
    DecimalValue.signed t = (sign == some true, s) := by
  cases t with
  | nil => exact ⟨none, [], rfl, rfl⟩
  | cons c t =>
    rw [DecimalValue.signed]
    split_ifs with h1 h2
    · obtain rfl : c = CodePoint.ofChar '-' := Fin.ext h1
      exact ⟨some true, t, rfl, rfl⟩
    · obtain rfl : c = CodePoint.ofChar '+' := Fin.ext h2
      exact ⟨some false, t, rfl, rfl⟩
    · exact ⟨none, c :: t, rfl, rfl⟩

theorem head?_digitText (h : c ∈ (digitText ds).head?) : c.val ≠ 0x2D ∧ c.val ≠ 0x2B := by
  have hdigit := isDigit_iff.mp (forall_isDigit ds c (List.mem_of_mem_head? h))
  omega

theorem exponent?_powerText (p : Option Power) :
    DecimalValue.exponent? (powerText p) = some (powerValue p) := by
  cases p with
  | none => rfl
  | some p =>
    obtain ⟨capital, sign, ds, hne⟩ := p
    have hletter : (lower (CodePoint.ofChar (if capital then 'E' else 'e'))).val = 0x65 := by
      cases capital <;> decide
    have hempty : ¬ ((digitText ds).isEmpty || !(digitText ds).all isDigit) = true := by
      rw [List.all_eq_true.mpr (forall_isDigit ds), Bool.not_true, Bool.or_false, List.isEmpty_iff]
      exact fun h => hne (List.map_eq_nil_iff.mp h)
    rw [powerText, DecimalValue.exponent?, if_neg (not_not.mpr hletter),
      signed_text sign fun c hc => head?_digitText hc]
    dsimp only
    rw [if_neg hempty, ofDigits_digitText]
    match sign with
    | some true => rfl
    | some false => rfl
    | none => rfl

theorem eq_of_lower (h : (lower c).val = 0x65) :
    ∃ capital : Bool, c = CodePoint.ofChar (if capital then 'E' else 'e') := by
  unfold lower at h
  split_ifs at h with hrange
  · rw [CodePoint.val_ofNat (by omega)] at h
    exact ⟨true, Fin.ext (show c.val = 0x45 by omega)⟩
  · exact ⟨false, Fin.ext h⟩

theorem exists_powerText {e : ℤ} (h : DecimalValue.exponent? t = some e) :
    ∃ p, powerText p = t := by
  cases t with
  | nil => exact ⟨none, rfl⟩
  | cons c t =>
    rw [DecimalValue.exponent?] at h
    by_cases hletter : (lower c).val = 0x65
    · obtain ⟨sign, s, rfl, hsigned⟩ := exists_signText t
      rw [if_neg (not_not.mpr hletter), hsigned] at h
      dsimp only at h
      by_cases hdigits : (s.isEmpty || !s.all isDigit) = true
      · rw [if_pos hdigits] at h
        cases h
      · rw [Bool.or_eq_true, not_or, Bool.not_eq_true', Bool.not_eq_false] at hdigits
        obtain ⟨hne, hall⟩ := hdigits
        obtain ⟨capital, rfl⟩ := eq_of_lower hletter
        obtain ⟨ds, rfl⟩ := exists_digitText (List.all_eq_true.mp hall)
        refine ⟨some ⟨capital, sign, ds, ?_⟩, rfl⟩
        rintro rfl
        exact hne rfl
    · rw [if_pos hletter] at h
      cases h

/-! ### Numbers without a sign -/

/-- The digits behind a point, if there is one. -/
def fractionOf (rest : Text) : Text :=
  if rest.head? == some (CodePoint.ofChar '.') then (rest.drop 1).takeWhile isDigit else []

/-- What follows the digits behind a point. -/
def afterFraction (rest : Text) : Text :=
  if rest.head? == some (CodePoint.ofChar '.') then rest.drop (1 + (fractionOf rest).length) else rest

/-- A number as far as its exponents are those of a decimal. -/
def held (x : Decimal) : Option DecimalValue :=
  if DecimalValue.maxAdjusted < x.adjusted || x.exponent < DecimalValue.minLast then none
  else some (.finite x)

theorem held_eq_some {x : Decimal} {v : DecimalValue} :
    held x = some v ↔ x.InRange ∧ v = .finite x := by
  unfold held
  split_ifs with h
  · rw [Bool.or_eq_true, decide_eq_true_eq, decide_eq_true_eq] at h
    refine iff_of_false nofun ?_
    rintro ⟨⟨h1, h2⟩, -⟩
    omega
  · rw [Bool.or_eq_true, decide_eq_true_eq, decide_eq_true_eq, not_or, not_lt, not_lt] at h
    constructor
    · rintro ⟨⟩
      exact ⟨⟨h.1, h.2⟩, rfl⟩
    · rintro ⟨-, rfl⟩
      rfl

theorem number?_eq {negative : Bool} {whole rest : Text} (hwhole : t.takeWhile isDigit = whole)
    (hrest : t.drop whole.length = rest) : DecimalValue.number? negative t =
      if whole.isEmpty && (fractionOf rest).isEmpty then none
      else (DecimalValue.exponent? (afterFraction rest)).bind fun power =>
        held ⟨negative, ofDigits (whole ++ fractionOf rest), power - (fractionOf rest).length⟩ := by
  subst hwhole hrest
  rfl

theorem noDigit_powerText (p : Option Power) : ∀ c ∈ (powerText p).head?, isDigit c = false := by
  cases p with
  | none => nofun
  | some p =>
    rintro c ⟨⟩
    cases p.capital <;> rfl

theorem noPoint_powerText (p : Option Power) :
    ((powerText p).head? == some (CodePoint.ofChar '.')) = false := by
  cases p with
  | none => rfl
  | some p =>
    show (some (CodePoint.ofChar (if p.capital then 'E' else 'e')) == _) = false
    cases p.capital <;> rfl

theorem fractionOf_text (fraction : Option (List (Fin 10))) (p : Option Power) :
    fractionOf (fractionText fraction ++ powerText p) = digitText (fraction.getD []) := by
  cases fraction with
  | none => exact if_neg (by rw [fractionText, List.nil_append, noPoint_powerText]; decide)
  | some ds => exact Json.takeWhile_append (forall_isDigit ds) (noDigit_powerText p)

theorem afterFraction_text (fraction : Option (List (Fin 10))) (p : Option Power) :
    afterFraction (fractionText fraction ++ powerText p) = powerText p := by
  rw [afterFraction, fractionOf_text]
  cases fraction with
  | none => exact if_neg (by rw [fractionText, List.nil_append, noPoint_powerText]; decide)
  | some ds =>
    refine (if_pos rfl).trans ?_
    rw [Nat.add_comm]
    exact List.drop_left

theorem takeWhile_append_drop (p : CodePoint → Bool) (t : Text) :
    t.takeWhile p ++ t.drop (t.takeWhile p).length = t :=
  List.prefix_iff_eq_append.mp (List.takeWhile_prefix p)

/-- A text is taken apart at its point. -/
theorem exists_fractionText (rest : Text) : ∃ fraction,
    digitText (fraction.getD []) = fractionOf rest ∧
      fractionText fraction ++ afterFraction rest = rest := by
  unfold afterFraction fractionOf
  split_ifs with hpoint
  · obtain ⟨t, rfl⟩ : ∃ t, rest = CodePoint.ofChar '.' :: t := by
      cases rest with
      | nil => cases hpoint
      | cons c t => exact ⟨t, by rw [Option.some.inj (eq_of_beq hpoint)]⟩
    obtain ⟨ds, hds⟩ := exists_digitText (t := t.takeWhile isDigit) fun c hc =>
      List.mem_takeWhile_imp hc
    refine ⟨some ds, hds, ?_⟩
    rw [fractionText, hds, List.cons_append, List.drop_one, List.tail_cons, Nat.add_comm,
      List.drop_succ_cons, takeWhile_append_drop]
  · exact ⟨none, rfl, rfl⟩

namespace Literal

variable (l : Literal)

theorem takeWhile_whole : l.unsigned.takeWhile isDigit = digitText l.whole := by
  refine Json.takeWhile_append (forall_isDigit _) ?_
  cases l.fraction with
  | none => exact noDigit_powerText l.power
  | some ds =>
    rintro c ⟨⟩
    rfl

theorem drop_whole : l.unsigned.drop (digitText l.whole).length =
    fractionText l.fraction ++ powerText l.power := List.drop_left

/-- A literal is read as its number. -/
theorem number?_unsigned : DecimalValue.number? (l.sign == some true) l.unsigned = held l.decimal := by
  have hdigits : ofDigits (digitText l.whole ++ digitText (l.fraction.getD [])) =
      numberOf l.digits := by
    rw [← ofDigits_digitText, digits, digitText, digitText, digitText, List.map_append]
  have hlength : (digitText (l.fraction.getD [])).length = (l.fraction.getD []).length :=
    List.length_map _
  have hsome : ¬ ((digitText l.whole).isEmpty && (digitText (l.fraction.getD [])).isEmpty) = true := by
    rw [Bool.and_eq_true, List.isEmpty_iff, List.isEmpty_iff, digitText, digitText,
      List.map_eq_nil_iff, List.map_eq_nil_iff, ← List.append_eq_nil_iff]
    exact l.some_digit
  rw [number?_eq l.takeWhile_whole l.drop_whole, fractionOf_text, afterFraction_text, if_neg hsome,
    exponent?_powerText, Option.bind_some, hdigits, hlength, decimal]

end Literal

/-- What is read as a number is a literal, whatever its sign. -/
theorem exists_literal {sign : Option Bool} {v : DecimalValue}
    (h : DecimalValue.number? (sign == some true) t = some v) :
    ∃ l : Literal, signText sign ++ t = l.text ∧ held l.decimal = some v := by
  have hread := h
  rw [number?_eq rfl rfl] at h
  have hsplit := takeWhile_append_drop isDigit t
  generalize ht : t.drop (t.takeWhile isDigit).length = rest at h hsplit
  obtain ⟨fraction, hfraction, hrest⟩ := exists_fractionText rest
  obtain ⟨whole, hwhole⟩ := exists_digitText (t := t.takeWhile isDigit) fun c hc =>
      List.mem_takeWhile_imp hc
  split_ifs at h with hempty
  obtain ⟨power, hpower, -⟩ := Option.bind_eq_some_iff.mp h
  obtain ⟨p, hp⟩ := exists_powerText hpower
  have hsome : whole ++ fraction.getD [] ≠ [] := by
    intro hnil
    rw [List.append_eq_nil_iff] at hnil
    rw [← hwhole, ← hfraction, hnil.1, hnil.2] at hempty
    exact hempty rfl
  let l : Literal := ⟨sign, whole, fraction, p, hsome⟩
  have hl : l.unsigned = t := by
    rw [Literal.unsigned, hp, hrest, hwhole, hsplit]
  refine ⟨l, by rw [Literal.text, hl], ?_⟩
  rw [← l.number?_unsigned, hl, ← hread]

/-! ### Texts of ASCII -/

theorem readAscii?_eq {negative : Bool} (h : DecimalValue.signed t = (negative, s)) :
    DecimalValue.readAscii? t =
      if s.map lower = ("inf" : Text) ∨ s.map lower = ("infinity" : Text) then some (.infinite negative)
      else if ("nan" : Text).isPrefixOf (s.map lower) then
        if (s.drop 3).all isDigit then some .quietNan else none
      else if ("snan" : Text).isPrefixOf (s.map lower) then
        if (s.drop 4).all isDigit then some .signalingNan else none
      else DecimalValue.number? negative s := by
  rw [DecimalValue.readAscii?, h]

/-- What is read is infinite, no number or a number. -/
theorem cases_of_readAscii? {negative : Bool} {v : DecimalValue}
    (hsigned : DecimalValue.signed t = (negative, s)) (h : DecimalValue.readAscii? t = some v) :
    (v = .infinite negative ∧ (s.map lower = ("inf" : Text) ∨ s.map lower = ("infinity" : Text))) ∨
      v = .quietNan ∨ v = .signalingNan ∨ DecimalValue.number? negative s = some v := by
  rw [readAscii?_eq hsigned] at h
  split_ifs at h with hword
  · exact .inl ⟨(Option.some.inj h).symm, hword⟩
  · exact .inr (.inl (Option.some.inj h).symm)
  · exact .inr (.inr (.inl (Option.some.inj h).symm))
  · exact .inr (.inr (.inr h))

/-- What begins with a digit or a point is no word. -/
theorem readAscii?_number {negative : Bool} (h : DecimalValue.signed t = (negative, c :: s))
    (hc : isDigit c = true ∨ c = CodePoint.ofChar '.') :
    DecimalValue.readAscii? t = DecimalValue.number? negative (c :: s) := by
  have hval : c.val ≤ 57 := by
    rcases hc with hc | rfl
    · exact (isDigit_iff.mp hc).2
    · decide
  have hlower : lower c = c := if_neg (by omega)
  have hne {a : Char} (ha : 57 < (CodePoint.ofChar a).val) : CodePoint.ofChar a ≠ c := by
    rintro rfl
    omega
  have hnan : ("nan" : Text).isPrefixOf (c :: s.map lower) = false :=
    Json.NumberText.isPrefixOf_head rfl (beq_eq_false_iff_ne.mpr (hne (a := 'n') (by decide)))
  have hsnan : ("snan" : Text).isPrefixOf (c :: s.map lower) = false :=
    Json.NumberText.isPrefixOf_head rfl (beq_eq_false_iff_ne.mpr (hne (a := 's') (by decide)))
  rw [readAscii?_eq h, List.map_cons, hlower, hnan, hsnan, if_neg, if_neg Bool.false_ne_true,
    if_neg Bool.false_ne_true]
  rintro (hword | hword)
  · exact hne (a := 'i') (by decide) (List.head_eq_of_cons_eq hword).symm
  · exact hne (a := 'i') (by decide) (List.head_eq_of_cons_eq hword).symm

namespace Literal

variable (l : Literal)

theorem exists_unsigned : ∃ c t, l.unsigned = c :: t ∧ (isDigit c = true ∨ c = CodePoint.ofChar '.') := by
  obtain ⟨sign, whole, fraction, power, hsome⟩ := l
  cases whole with
  | cons d ds => exact ⟨_, _, rfl, .inl (isDigit_digitMark d)⟩
  | nil =>
    cases fraction with
    | none => exact absurd rfl hsome
    | some ds => exact ⟨_, _, rfl, .inr rfl⟩

theorem signed_text : DecimalValue.signed l.text = (l.sign == some true, l.unsigned) := by
  refine Decimal.signed_text l.sign fun c hc => ?_
  obtain ⟨d, t, ht, hd⟩ := l.exists_unsigned
  rw [ht] at hc
  obtain rfl : d = c := Option.some.inj hc
  rcases hd with hd | rfl
  · have hdigit := isDigit_iff.mp hd
    omega
  · decide

theorem readAscii?_text : DecimalValue.readAscii? l.text = held l.decimal := by
  obtain ⟨c, t, ht, hc⟩ := l.exists_unsigned
  have hsigned := l.signed_text
  rw [ht] at hsigned
  rw [readAscii?_number hsigned hc, ← ht, number?_unsigned]

end Literal

/-- Only literals are read as numbers. -/
theorem exists_text {x : Decimal} (h : DecimalValue.readAscii? t = some (.finite x)) :
    ∃ l : Literal, t = l.text ∧ held l.decimal = some (.finite x) := by
  obtain ⟨sign, s, rfl, hsigned⟩ := exists_signText t
  obtain ⟨⟨⟩, -⟩ | ⟨⟨⟩⟩ | ⟨⟨⟩⟩ | hnumber := cases_of_readAscii? hsigned h
  exact exists_literal hnumber

/-- The letters of a word for infinity. -/
theorem letters_of_word (h : t.map lower = ("inf" : Text) ∨ t.map lower = ("infinity" : Text)) :
    ∀ c ∈ t, (65 ≤ c.val ∧ c.val ≤ 90) ∨ (97 ≤ c.val ∧ c.val ≤ 122) := by
  intro c hc
  have hsmall : 97 ≤ (lower c).val ∧ (lower c).val ≤ 122 := by
    have hmem : lower c ∈ t.map lower := List.mem_map_of_mem hc
    have hshort : ("inf" : Text).all (fun a => 97 ≤ a.val ∧ a.val ≤ 122) = true := by decide
    have hlong : ("infinity" : Text).all (fun a => 97 ≤ a.val ∧ a.val ≤ 122) = true := by decide
    rcases h with h | h
    · rw [h] at hmem
      exact of_decide_eq_true (List.all_eq_true.mp hshort _ hmem)
    · rw [h] at hmem
      exact of_decide_eq_true (List.all_eq_true.mp hlong _ hmem)
  unfold lower at hsmall
  split_ifs at hsmall with hcapital
  · exact .inl hcapital
  · exact .inr hsmall

theorem readAscii?_infinite {negative : Bool} :
    DecimalValue.readAscii? t = some (.infinite negative) ↔ ∃ sign word, t = signText sign ++ word ∧
      (sign == some true) = negative ∧
      (word.map lower = ("inf" : Text) ∨ word.map lower = ("infinity" : Text)) := by
  constructor
  · intro h
    obtain ⟨sign, s, rfl, hsigned⟩ := exists_signText t
    obtain ⟨⟨⟩, hword⟩ | ⟨⟨⟩⟩ | ⟨⟨⟩⟩ | hnumber := cases_of_readAscii? hsigned h
    · exact ⟨sign, s, rfl, rfl, hword⟩
    · obtain ⟨l, -, hheld⟩ := exists_literal hnumber
      obtain ⟨⟨⟩⟩ := (held_eq_some.mp hheld).2
  · rintro ⟨sign, word, rfl, rfl, hword⟩
    have hsigned : DecimalValue.signed (signText sign ++ word) = (sign == some true, word) :=
      Decimal.signed_text sign fun c hc => by
        have := letters_of_word hword c (List.mem_of_mem_head? hc)
        omega
    rw [readAscii?_eq hsigned, if_pos hword]

/-! ### Blanks, underscores and scripts -/

/-- A code point of ASCII that can be seen, other than the underscore. -/
def Visible (c : CodePoint) : Prop := 0x21 ≤ c.val ∧ c.val ≤ 0x7E ∧ c.val ≠ 0x5F

instance : Decidable (Visible c) := inferInstanceAs (Decidable (_ ∧ _))

theorem Visible.isBlank (h : Visible c) : c.isBlank = false := by
  obtain ⟨h1, h2, -⟩ := h
  unfold CodePoint.isBlank
  simp only [Bool.or_eq_false_iff, Bool.and_eq_false_iff, decide_eq_false_iff_not, beq_eq_false_iff_ne]
  omega

theorem visible_digitText (ds : List (Fin 10)) : ∀ c ∈ digitText ds, Visible c := by
  intro c hc
  have hdigit := isDigit_iff.mp (forall_isDigit ds c hc)
  exact ⟨by omega, by omega, by omega⟩

theorem visible_signText (sign : Option Bool) : ∀ c ∈ signText sign, Visible c := by
  match sign with
  | none => nofun
  | some true =>
    intro c hc
    obtain rfl := List.mem_singleton.mp hc
    decide
  | some false =>
    intro c hc
    obtain rfl := List.mem_singleton.mp hc
    decide

theorem visible_fractionText (fraction : Option (List (Fin 10))) :
    ∀ c ∈ fractionText fraction, Visible c := by
  cases fraction with
  | none => nofun
  | some ds => exact List.forall_mem_cons.mpr ⟨by decide, visible_digitText ds⟩

theorem visible_powerText (p : Option Power) : ∀ c ∈ powerText p, Visible c := by
  cases p with
  | none => nofun
  | some p =>
    have hletter : Visible (CodePoint.ofChar (if p.capital then 'E' else 'e')) := by
      cases p.capital <;> decide
    exact List.forall_mem_cons.mpr ⟨hletter,
      List.forall_mem_append.mpr ⟨visible_signText p.sign, visible_digitText p.digits⟩⟩

theorem Literal.visible_text (l : Literal) : ∀ c ∈ l.text, Visible c := by
  refine List.forall_mem_append.mpr ⟨visible_signText l.sign, ?_⟩
  refine List.forall_mem_append.mpr ⟨visible_digitText l.whole, ?_⟩
  exact List.forall_mem_append.mpr ⟨visible_fractionText l.fraction, visible_powerText l.power⟩

/-- No digit of a script is a blank, and those of ASCII are its only ones. -/
theorem digits_of_scripts : ∀ z ∈ CodePoint.zeroDigits, ∀ d : Fin 10,
    (CodePoint.ofNat (z + d)).isBlank = false ∧ (CodePoint.ofNat (z + d)).val ≠ 0 ∧
      ((CodePoint.ofNat (z + d)).isAscii = true → CodePoint.ofNat (z + d) = digitMark d) := by
  decide +kernel

theorem exists_zeroDigit {n : Nat} (h : c.digitValue? = some n) :
    ∃ z ∈ CodePoint.zeroDigits, ∃ d : Fin 10, n = d ∧ c = CodePoint.ofNat (z + d) := by
  obtain ⟨z, hz, rfl⟩ := Option.map_eq_some_iff.mp h
  have hrun := List.find?_some hz
  rw [Bool.and_eq_true, decide_eq_true_eq, decide_eq_true_eq] at hrun
  refine ⟨z, List.mem_of_find?_eq_some hz, ⟨c.val - z, by omega⟩, rfl, ?_⟩
  have hval : z + (c.val - z) = c.val := by omega
  rw [hval, CodePoint.ofNat_val]

theorem asciiOf?_eq_some (ha : Visible a) : DecimalValue.asciiOf? c = some a ↔ StandsFor c a := by
  unfold DecimalValue.asciiOf?
  constructor
  · intro h
    split_ifs at h with hnul hascii hblank
    · exact .inl (Option.some.inj h)
    · obtain ⟨⟩ := h
      exact absurd ha (by decide)
    · obtain ⟨n, hn, rfl⟩ := Option.map_eq_some_iff.mp h
      obtain ⟨z, -, d, rfl, -⟩ := exists_zeroDigit hn
      exact .inr ⟨d, hn, rfl⟩
  · rintro (rfl | ⟨d, hd, rfl⟩)
    · have hascii : c.isAscii = true := decide_eq_true (by have := ha.2.1; omega)
      rw [if_neg (by have := ha.1; omega), if_pos hascii]
    · obtain ⟨z, hz, e, he, rfl⟩ := exists_zeroDigit hd
      obtain rfl : d = e := Fin.ext he
      obtain ⟨hblank, hnul, hascii⟩ := digits_of_scripts z hz d
      rw [if_neg hnul]
      by_cases h : (CodePoint.ofNat (z + d)).isAscii = true
      · rw [if_pos h, hascii h]
      · rw [if_neg h, if_neg (by rw [hblank]; decide), hd]
        rfl

theorem StandsFor.isBlank (h : StandsFor c a) (ha : Visible a) : c.isBlank = false := by
  rcases h with rfl | ⟨d, hd, rfl⟩
  · exact ha.isBlank
  · obtain ⟨z, hz, e, -, rfl⟩ := exists_zeroDigit hd
    exact (digits_of_scripts z hz e).1

theorem asciiAll?_eq_some : DecimalValue.asciiAll? t = some s ↔
    List.Forall₂ (fun c a => DecimalValue.asciiOf? c = some a) t s := by
  induction t generalizing s with
  | nil =>
    rw [DecimalValue.asciiAll?, Option.some_inj, List.forall₂_nil_left_iff]
    exact eq_comm
  | cons c t ih =>
    constructor
    · intro h
      obtain ⟨a, ha, h⟩ := Option.bind_eq_some_iff.mp h
      obtain ⟨s, hs, ⟨⟩⟩ := Option.bind_eq_some_iff.mp h
      exact .cons ha (ih.mp hs)
    · rintro (_ | ⟨ha, hs⟩)
      rw [DecimalValue.asciiAll?, ha, ih.mpr hs]
      rfl

theorem asciiAll?_of_visible (hs : ∀ a ∈ s, Visible a) :
    DecimalValue.asciiAll? t = some s ↔ List.Forall₂ StandsFor t s := by
  rw [asciiAll?_eq_some]
  induction s generalizing t with
  | nil => rw [List.forall₂_nil_right_iff, List.forall₂_nil_right_iff]
  | cons a s ih =>
    obtain ⟨ha, hs⟩ := List.forall_mem_cons.mp hs
    rw [List.forall₂_cons_right_iff, List.forall₂_cons_right_iff]
    simp only [asciiOf?_eq_some ha, ih hs]

theorem isBlank_of_standsFor (h : List.Forall₂ StandsFor t s) (hs : ∀ a ∈ s, Visible a) :
    ∀ c ∈ t, c.isBlank = false := by
  induction h with
  | nil => nofun
  | cons hca _ ih =>
    obtain ⟨ha, hs⟩ := List.forall_mem_cons.mp hs
    exact List.forall_mem_cons.mpr ⟨hca.isBlank ha, ih hs⟩

/-- What stands between blanks is what is left without them. -/
theorem strip_append {p : CodePoint → Bool} {before core after : Text} (hbefore : ∀ c ∈ before, p c = true)
    (hcore : ∀ c ∈ core, p c = false) (hafter : ∀ c ∈ after, p c = true) :
    (before ++ (core ++ after)).strip p = core := by
  rw [Text.strip, List.dropWhile_append_of_pos hbefore]
  cases core with
  | nil =>
    -- nothing stands between the blanks, and all of them go from the left
    rw [List.nil_append, List.dropWhile_eq_nil_iff.mpr hafter]
    rfl
  | cons c t =>
    have hc : ¬ p c = true := by
      rw [hcore c List.mem_cons_self]
      decide
    have hreverse : (c :: t).reverse.dropWhile p = (c :: t).reverse := by
      refine List.dropWhile_eq_self_iff.mpr fun h => ?_
      rw [hcore _ (List.mem_reverse.mp (List.getElem_mem h))]
      decide
    rw [List.cons_append, List.dropWhile_cons_of_neg hc, ← List.cons_append, List.reverse_append,
      List.dropWhile_append_of_pos fun d hd => hafter d (List.mem_reverse.mp hd), hreverse,
      List.reverse_reverse]

theorem exists_strip (p : CodePoint → Bool) (t : Text) : ∃ before after,
    t = before ++ (t.strip p ++ after) ∧ (∀ c ∈ before, p c = true) ∧ (∀ c ∈ after, p c = true) := by
  refine ⟨t.takeWhile p, ((t.dropWhile p).reverse.takeWhile p).reverse, ?_,
    fun c hc => List.mem_takeWhile_imp hc, fun c hc => ?_⟩
  · rw [Text.strip, ← List.reverse_append, List.takeWhile_append_dropWhile, List.reverse_reverse,
      List.takeWhile_append_dropWhile]
  · exact List.mem_takeWhile_imp (List.mem_reverse.mp hc)

/-! ### Reading -/

/-- A text that reads as one of visible marks is read as that. -/
theorem read?_of_reads (h : Reads t s) (hs : ∀ a ∈ s, Visible a) :
    DecimalValue.read? t = DecimalValue.readAscii? s := by
  obtain ⟨before, core, after, rfl, hbefore, hafter, hcore⟩ := h
  have hblank : ∀ c ∈ core, c.isBlank = false := by
    intro c hc
    by_cases hunderscore : c.val = 0x5F
    · obtain rfl : c = CodePoint.ofChar '_' := Fin.ext hunderscore
      rfl
    · exact isBlank_of_standsFor hcore hs c (List.mem_filter.mpr ⟨hc, decide_eq_true hunderscore⟩)
  rw [DecimalValue.read?, strip_append hbefore hblank hafter, (asciiAll?_of_visible hs).mpr hcore,
    Option.bind_some]

theorem reads_of_read? {v : DecimalValue} (h : DecimalValue.read? t = some v) :
    ∃ s, DecimalValue.readAscii? s = some v ∧ ((∀ a ∈ s, Visible a) → Reads t s) := by
  obtain ⟨s, hs, hread⟩ := Option.bind_eq_some_iff.mp h
  obtain ⟨before, after, ht, hbefore, hafter⟩ := exists_strip CodePoint.isBlank t
  exact ⟨s, hread, fun hvisible =>
    ⟨before, _, after, ht, hbefore, hafter, (asciiAll?_of_visible hvisible).mp hs⟩⟩

theorem read?_of_spells {l : Literal} (h : Spells t l) : DecimalValue.read? t = held l.decimal := by
  rw [read?_of_reads h l.visible_text, l.readAscii?_text]

theorem exists_spells {x : Decimal} (h : DecimalValue.read? t = some (.finite x)) :
    ∃ l, Spells t l ∧ l.decimal = x := by
  obtain ⟨s, hs, hreads⟩ := reads_of_read? h
  obtain ⟨l, rfl, hheld⟩ := exists_text hs
  obtain ⟨⟨⟩⟩ := (held_eq_some.mp hheld).2
  exact ⟨l, hreads l.visible_text, rfl⟩

theorem read?_infinite {negative : Bool} :
    DecimalValue.read? t = some (.infinite negative) ↔ SpellsInfinity negative t := by
  have hvisible {sign : Option Bool} {word : Text}
      (hword : word.map lower = ("inf" : Text) ∨ word.map lower = ("infinity" : Text)) :
      ∀ a ∈ signText sign ++ word, Visible a := by
    refine List.forall_mem_append.mpr ⟨visible_signText sign, fun a ha => ?_⟩
    have hletter := letters_of_word hword a ha
    exact ⟨by omega, by omega, by omega⟩
  constructor
  · intro h
    obtain ⟨s, hs, hreads⟩ := reads_of_read? h
    obtain ⟨sign, word, rfl, hsign, hword⟩ := readAscii?_infinite.mp hs
    exact ⟨sign, word, hreads (hvisible hword), hsign, hword⟩
  · rintro ⟨sign, word, hreads, hsign, hword⟩
    rw [read?_of_reads hreads (hvisible hword)]
    exact readAscii?_infinite.mpr ⟨sign, word, rfl, hsign, hword⟩

/-! ### Integers -/

theorem reads_self (hs : ∀ a ∈ s, Visible a) : Reads s s := by
  have hfilter : s.filter (·.val ≠ 0x5F) = s :=
    List.filter_eq_self.mpr fun a ha => decide_eq_true (hs a ha).2.2
  refine ⟨[], s, [], ?_, nofun, nofun, ?_⟩
  · rw [List.append_nil, List.nil_append]
  · rw [hfilter]
    exact List.forall₂_same.mpr fun a _ => .inl rfl

theorem Literal.spells_text (l : Literal) : Spells l.text l := reads_self l.visible_text

/-- The text of an integer is a literal for it. -/
theorem exists_ofInt (n : Int) : ∃ l : Literal, l.text = Text.ofInt n ∧ l.decimal = ofInt n := by
  obtain ⟨ds, hds⟩ := exists_digitText (Json.allDigits_ofNat n.natAbs)
  have hne : ds ++ (none : Option (List (Fin 10))).getD [] ≠ [] := by
    rw [Option.getD_none, List.append_nil]
    rintro rfl
    exact Json.ofNat_ne_nil _ hds.symm
  have hvalue : numberOf ds = n.natAbs := by
    rw [← ofDigits_digitText, hds]
    exact Json.ofDigits_ofNat _
  refine ⟨⟨if n < 0 then some true else none, ds, none, none, hne⟩, ?_, ?_⟩
  · have hunsigned : digitText ds ++ (fractionText none ++ powerText none) = Text.ofNat n.natAbs := by
      rw [hds]
      exact List.append_nil _
    rw [Literal.text, Literal.unsigned, hunsigned]
    cases n with
    | ofNat k => rfl
    | negSucc k =>
      show signText (if Int.negSucc k < 0 then some true else none) ++ _ = _
      rw [if_pos (Int.negSucc_lt_zero k)]
      rfl
  · have hsign : ((if n < 0 then some true else none) == some true) = decide (n < 0) := by
      split_ifs with h
      · exact (decide_eq_true h).symm
      · exact (decide_eq_false h).symm
    have hdigits : numberOf (ds ++ (none : Option (List (Fin 10))).getD []) = n.natAbs := by
      rw [Option.getD_none, List.append_nil, hvalue]
    rw [Literal.decimal, Literal.digits, hsign, hdigits, ofInt]
    rfl

/-- An integer is read as itself, whatever its sign. -/
theorem read?_ofInt (n : Int) : DecimalValue.read? (Text.ofInt n) = held (ofInt n) := by
  obtain ⟨l, htext, hdecimal⟩ := exists_ofInt n
  rw [← htext, read?_of_spells l.spells_text, hdecimal]

end Decimal

end LedgerWire
