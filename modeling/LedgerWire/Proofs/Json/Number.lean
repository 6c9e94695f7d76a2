import LedgerWire.Json.Writer
import LedgerWire.Proofs.Json.Reader
import LedgerWire.Proofs.Number.Shortest
import LedgerWire.Proofs.Text.Utf8

/-!
# Numbers in documents

A number that was written is read as itself. `NumberText` takes the text of a number apart as the reader
does, and `numberAt_text` reads every one of them, up to what may follow it. Whole numbers and both
layouts of floating-point numbers are such texts.
-/

namespace LedgerWire

namespace Json

open Binary64 (zeros)

/-! ### Runs of digits -/

/-- All code points are digits. -/
def AllDigits (ds : Text) : Prop := ∀ d ∈ ds, isDigit d

/-- No digit stands at the beginning. -/
def NoDigit (t : Text) : Prop := ∀ c ∈ t.head?, isDigit c = false

theorem AllDigits.append {s t : Text} (hs : AllDigits s) (ht : AllDigits t) : AllDigits (s ++ t) :=
  fun d hd => (List.mem_append.mp hd).elim (hs d) (ht d)

theorem AllDigits.of_sublist {s t : Text} (ht : AllDigits t) (h : s.Sublist t) : AllDigits s :=
  fun d hd => ht d (h.subset hd)

theorem ofDigits_snoc (ds : Text) (d : CodePoint) :
    ofDigits (ds ++ [d]) = 10 * ofDigits ds + (d.val - 48) := by
  rw [ofDigits, List.foldl_append]
  rfl

theorem ofDigits_append (s t : Text) : ofDigits (s ++ t) = ofDigits s * 10 ^ t.length + ofDigits t := by
  induction t using List.reverseRecOn with
  | nil => simp [ofDigits]
  | append_singleton t d ih =>
    rw [← List.append_assoc, ofDigits_snoc, ofDigits_snoc, ih, List.length_append,
      List.length_singleton, Nat.pow_succ, Nat.mul_add, ← Nat.mul_assoc, Nat.mul_comm 10,
      Nat.mul_right_comm, Nat.mul_assoc, Nat.add_assoc]

@[simp] theorem ofDigits_zeros (k : Nat) : ofDigits (zeros k) = 0 := by
  induction k with
  | zero => rfl
  | succ k ih => exact ih

@[simp] theorem ofDigits_append_zeros (ds : Text) (k : Nat) :
    ofDigits (ds ++ zeros k) = ofDigits ds * 10 ^ k := by
  rw [ofDigits_append, ofDigits_zeros, zeros, List.length_replicate, Nat.add_zero]

@[simp]
theorem ofDigits_zeros_append (k : Nat) (ds : Text) : ofDigits (zeros k ++ ds) = ofDigits ds := by
  rw [ofDigits_append, ofDigits_zeros, Nat.zero_mul, Nat.zero_add]

theorem allDigits_zeros (k : Nat) : AllDigits (zeros k) := fun d hd => by
  rw [List.eq_of_mem_replicate hd]
  rfl

/-- The decimal digits of a number, the last one apart. -/
theorem ofNat_eq (n : Nat) : Text.ofNat n =
    (if n < 10 then [] else Text.ofNat (n / 10)) ++ [CodePoint.ofNat (48 + n % 10)] := by
  have hdigit : ∀ d < 10, CodePoint.ofChar d.digitChar = CodePoint.ofNat (48 + d) := by decide
  rw [Text.ofNat, Nat.toDigits_eq_if (by decide)]
  by_cases h : n < 10
  · rw [if_pos h, if_pos h, Nat.mod_eq_of_lt h, List.map_singleton, hdigit n h, List.nil_append]
  · rw [if_neg h, if_neg h, List.map_append, List.map_singleton,
      hdigit _ (Nat.mod_lt _ (by decide)), Text.ofNat]

@[simp] theorem ofNat_ne_nil (n : Nat) : Text.ofNat n ≠ [] := by
  rw [ofNat_eq]
  exact List.append_ne_nil_of_right_ne_nil _ (List.cons_ne_nil _ _)

theorem allDigits_ofNat (n : Nat) : AllDigits (Text.ofNat n) := by
  induction n using Nat.strongRecOn with
  | ind n ih =>
    have hdigit : ∀ d < 10, isDigit (CodePoint.ofNat (48 + d)) := by decide
    have hlast : AllDigits [CodePoint.ofNat (48 + n % 10)] := fun d hd => by
      rw [List.mem_singleton.mp hd]
      exact hdigit _ (Nat.mod_lt _ (by decide))
    rw [ofNat_eq]
    refine AllDigits.append ?_ hlast
    by_cases h : n < 10
    · rw [if_pos h]
      exact fun d hd => nomatch hd
    · rw [if_neg h]
      exact ih _ (by omega)

@[simp] theorem ofDigits_ofNat (n : Nat) : ofDigits (Text.ofNat n) = n := by
  induction n using Nat.strongRecOn with
  | ind n ih =>
    rw [ofNat_eq, ofDigits_snoc, CodePoint.val_ofNat (by omega)]
    by_cases h : n < 10
    · rw [if_pos h]
      show 10 * 0 + _ = n
      omega
    · rw [if_neg h, ih _ (by omega)]
      omega

/-- The digits of a number that is not zero do not begin with one. -/
theorem head?_ofNat {n : Nat} (hn : n ≠ 0) : (Text.ofNat n).head? ≠ some (CodePoint.ofChar '0') := by
  induction n using Nat.strongRecOn with
  | ind n ih =>
    rw [ofNat_eq]
    by_cases h : n < 10
    · have hdigit : ∀ d < 10, d ≠ 0 → CodePoint.ofNat (48 + d) ≠ CodePoint.ofChar '0' := by decide
      rw [if_pos h, Nat.mod_eq_of_lt h]
      exact fun he => hdigit n h hn (Option.some.inj he)
    · rw [if_neg h, List.head?_append_of_ne_nil _ (ofNat_ne_nil _)]
      exact ih _ (by omega) (by omega)

/-! ### The parts of a number -/

/-- Digits that the reader takes for the whole part of a number: a zero stands alone. -/
structure IsWhole (ds : Text) : Prop where
  digits : AllDigits ds
  ne_nil : ds ≠ []
  zero_alone : ds.head? = some (CodePoint.ofChar '0') → ds = [CodePoint.ofChar '0']

theorem isWhole_zero : IsWhole [CodePoint.ofChar '0'] :=
  ⟨allDigits_zeros 1, List.cons_ne_nil _ _, fun _ => rfl⟩

theorem isWhole_ofNat (n : Nat) : IsWhole (Text.ofNat n) := by
  refine ⟨allDigits_ofNat n, ofNat_ne_nil n, fun h => ?_⟩
  by_cases hn : n = 0
  · rw [hn]
    rfl
  · exact absurd h (head?_ofNat hn)

/-- Digits that begin as those of a number do. -/
theorem isWhole_of_head? {n : Nat} (hn : n ≠ 0) {ds : Text} (hds : AllDigits ds)
    (hhead : ds.head? = (Text.ofNat n).head?) : IsWhole ds := by
  refine ⟨hds, fun h => ?_, fun h => absurd (hhead ▸ h) (head?_ofNat hn)⟩
  rw [h] at hhead
  exact ofNat_ne_nil n (List.head?_eq_none_iff.mp hhead.symm)

theorem wholeDigits_append {ds t : Text} (hds : IsWhole ds) (ht : NoDigit t) :
    wholeDigits (ds ++ t) = ds := by
  rw [wholeDigits, List.head?_append_of_ne_nil _ hds.ne_nil]
  split
  · next h =>
    rw [hds.zero_alone h]
    rfl
  · exact takeWhile_append hds.digits ht

/-- The text of a number as the reader takes it apart: a sign, the whole part, the digits after the
point and the exponent with its sign. Fraction and exponent may be missing. -/
structure NumberText where
  negative : Bool
  whole : Text
  fraction : Text
  power : Option (Bool × Text)
  isWhole : IsWhole whole
  allDigits_fraction : AllDigits fraction
  power_digits : ∀ p ∈ power, p.2 ≠ [] ∧ AllDigits p.2

namespace NumberText

variable (n : NumberText)

def sign (negative : Bool) : Text := if negative then [CodePoint.ofChar '-'] else []

def fractionText : Text := if n.fraction = [] then [] else CodePoint.ofChar '.' :: n.fraction

def powerText : Text :=
  match n.power with
  | none => []
  | some (negative, digits) =>
    CodePoint.ofChar 'e' :: CodePoint.ofChar (if negative then '-' else '+') :: digits

def text : Text := sign n.negative ++ (n.whole ++ (n.fractionText ++ n.powerText))

def exponent : Int :=
  match n.power with
  | none => 0
  | some (negative, digits) => if negative then -(ofDigits digits : Int) else ofDigits digits

/-- The number that is read. -/
def value : Json :=
  if n.fraction = [] ∧ n.power = none then
    .int (if n.negative then -(ofDigits n.whole : Int) else ofDigits n.whole)
  else .float (.ofDecimal n.negative (ofDigits (n.whole ++ n.fraction))
    (n.exponent - n.fraction.length))

end NumberText

/-! ### Reading -/

/-- What may follow a document that was written: nothing, a comma, or the end of a line. -/
def Closes (rest : Text) : Prop := ∀ c ∈ rest.head?, c = CodePoint.ofChar ',' ∨ c = newline

theorem Closes.noDigit {rest : Text} (h : Closes rest) : NoDigit rest := fun c hc => by
  rcases h c hc with rfl | rfl <;> rfl

theorem exponentAt_closes {rest : Text} (h : Closes rest) : exponentAt rest = none := by
  cases rest with
  | nil => rfl
  | cons c t => rcases h c rfl with rfl | rfl <;> rfl

theorem fractionDigits_closes {rest : Text} (h : Closes rest) : fractionDigits rest = [] := by
  cases rest with
  | nil => rfl
  | cons c t => rcases h c rfl with rfl | rfl <;> rfl

namespace NumberText

variable (n : NumberText) {rest : Text}

theorem noDigit_powerText (h : Closes rest) : NoDigit (n.powerText ++ rest) := by
  unfold powerText
  split
  · exact h.noDigit
  · rintro c ⟨⟩
    rfl

theorem noDigit_fractionText (h : Closes rest) : NoDigit (n.fractionText ++ (n.powerText ++ rest)) := by
  unfold fractionText
  split
  · exact n.noDigit_powerText h
  · rintro c ⟨⟩
    rfl

theorem fractionDigits_append (h : Closes rest) :
    fractionDigits (n.fractionText ++ (n.powerText ++ rest)) = n.fraction := by
  unfold fractionText
  split
  · next hf =>
    rw [List.nil_append, hf]
    unfold powerText
    split
    · exact fractionDigits_closes h
    · rfl
  · exact takeWhile_append n.allDigits_fraction (n.noDigit_powerText h)

theorem exponentAt_append (h : Closes rest) : exponentAt (n.powerText ++ rest) =
    n.power.map fun _ => (n.exponent, n.powerText.length) := by
  obtain ⟨negative, whole, fraction, power, -, -, hpower⟩ := n
  cases power with
  | none => exact exponentAt_closes h
  | some p =>
    obtain ⟨negative, digits⟩ := p
    obtain ⟨hne, hdigits⟩ := hpower _ rfl
    have htake : (digits ++ rest).takeWhile isDigit = digits := takeWhile_append hdigits h.noDigit
    have hread : exponentAt (CodePoint.ofChar 'e' ::
        CodePoint.ofChar (if negative then '-' else '+') :: (digits ++ rest)) =
        if ((digits ++ rest).takeWhile isDigit).isEmpty then none
        else some (if negative then -(ofDigits ((digits ++ rest).takeWhile isDigit) : Int)
          else ofDigits ((digits ++ rest).takeWhile isDigit),
          1 + 1 + ((digits ++ rest).takeWhile isDigit).length) := by
      cases negative <;> rfl
    refine hread.trans ?_
    rw [htake, if_neg (by rw [List.isEmpty_iff]; exact hne), Nat.add_comm (1 + 1)]
    rfl

theorem getD_exponent : (n.power.map fun _ => (n.exponent, n.powerText.length)).getD (0, 0) =
    (n.exponent, n.powerText.length) := by
  unfold exponent powerText
  cases n.power <;> rfl

/-- The sign stands apart from the digits. -/
theorem start_text (rest : Text) (position : Nat) :
    Cursor.isAt ⟨position, n.text ++ rest⟩ '-' = n.negative ∧ ∃ next,
      (if n.negative then Cursor.advance ⟨position, n.text ++ rest⟩ 1
        else ⟨position, n.text ++ rest⟩) =
          (⟨next, n.whole ++ (n.fractionText ++ (n.powerText ++ rest))⟩ : Cursor) := by
  obtain ⟨d, ds, hw⟩ := List.exists_cons_of_ne_nil n.isWhole.ne_nil
  have hd : isDigit d := n.isWhole.digits d (hw ▸ List.mem_cons_self)
  rw [text, sign, hw]
  simp only [List.append_assoc]
  cases n.negative with
  | true => exact ⟨rfl, _, rfl⟩
  | false =>
    refine ⟨?_, _, rfl⟩
    show (some d == some (CodePoint.ofChar '-')) = false
    refine beq_eq_false_iff_ne.mpr fun he => ?_
    rw [Option.some.inj he] at hd
    exact absurd hd (by decide)

theorem afterFraction_text (rest : Text) (position : Nat) : ∃ next,
    (if n.fraction.isEmpty then ⟨position, n.fractionText ++ rest⟩
      else Cursor.advance ⟨position, n.fractionText ++ rest⟩ (n.fraction.length + 1)) =
      (⟨next, rest⟩ : Cursor) := by
  unfold fractionText
  simp only [List.isEmpty_iff]
  split
  · exact ⟨_, rfl⟩
  · exact ⟨_, congrArg _ List.drop_left⟩

/-- Every text of a number is read as that number. -/
theorem numberAt_text (h : Closes rest) (position : Nat) : ∃ next,
    numberAt ⟨position, n.text ++ rest⟩ = .ok (n.value, ⟨next, rest⟩) := by
  obtain ⟨hsign, start, hstart⟩ := n.start_text rest position
  have hwhole := wholeDigits_append n.isWhole (n.noDigit_fractionText h)
  have hne : ¬ n.whole.isEmpty := by
    rw [List.isEmpty_iff]
    exact n.isWhole.ne_nil
  have hadvance : Cursor.advance ⟨start, n.whole ++ (n.fractionText ++ (n.powerText ++ rest))⟩
      n.whole.length = ⟨start + n.whole.length, n.fractionText ++ (n.powerText ++ rest)⟩ :=
    congrArg _ List.drop_left
  obtain ⟨middle, hmiddle⟩ := n.afterFraction_text (n.powerText ++ rest) (start + n.whole.length)
  unfold numberAt
  dsimp only
  rw [hsign, hstart, hwhole, if_neg hne, hadvance, n.fractionDigits_append h, hmiddle,
    n.exponentAt_append h]
  by_cases hint : n.fraction = [] ∧ n.power = none
  · have htext : n.powerText = [] := by rw [powerText, hint.2]
    refine ⟨middle, ?_⟩
    rw [value, if_pos hint, hint.1, hint.2, htext]
    rfl
  · have hread : ¬ (n.fraction.isEmpty &&
        (n.power.map fun _ => (n.exponent, n.powerText.length)).isNone) = true := by
      simpa using hint
    rw [value, if_neg hint, if_neg hread, n.getD_exponent]
    exact ⟨_, congrArg (fun t => Except.ok (_, Cursor.mk _ t)) List.drop_left⟩

end NumberText

/-! ### What is written -/

/-- A whole number in digits. -/
def NumberText.ofInt (n : Int) : NumberText where
  negative := decide (n < 0)
  whole := Text.ofNat n.natAbs
  fraction := []
  power := none
  isWhole := isWhole_ofNat _
  allDigits_fraction := fun _ hd => nomatch hd
  power_digits := fun _ hp => nomatch hp

@[simp] theorem NumberText.text_ofInt (n : Int) : (ofInt n).text = Text.ofInt n := by
  cases n with
  | ofNat n => exact List.append_nil _
  | negSucc n =>
    show sign (decide (Int.negSucc n < 0)) ++ (Text.ofNat (n + 1) ++ []) = _
    rw [decide_eq_true (Int.negSucc_lt_zero n), List.append_nil]
    rfl

@[simp] theorem NumberText.value_ofInt (n : Int) : (ofInt n).value = .int n := by
  show Json.int (if decide (n < 0) then -(ofDigits (Text.ofNat n.natAbs) : Int)
    else ofDigits (Text.ofNat n.natAbs)) = _
  rw [ofDigits_ofNat]
  congr 1
  simp only [decide_eq_true_eq]
  omega

open Binary64

section Layout

variable (negative : Bool) (d : Digits)

/-- The text of a number stands for digits and exponent, before rounding. -/
theorem NumberText.value_float {n : NumberText} (hn : n.fraction ≠ [] ∨ n.power ≠ none) {k : Nat}
    (hdigits : ofDigits (n.whole ++ n.fraction) = d.digits * 10 ^ k)
    (hexponent : n.exponent - n.fraction.length + k = d.exponent) :
    n.value = .float (ofDecimal n.negative d.digits d.exponent) := by
  rw [value, if_neg fun h => hn.elim (· h.1) (· h.2), hdigits, ofDecimal_mul_pow, hexponent]

/-- Digits after the point alone. -/
theorem NumberText.exists_small {point : Int} (hp : point ≤ 0)
    (hpoint : point = (Text.ofNat d.digits).length + d.exponent) : ∃ n : NumberText,
      n.text = sign negative ++ Text.join ["0.", zeros (-point).toNat, Text.ofNat d.digits] ∧
      n.value = .float (ofDecimal negative d.digits d.exponent) := by
  have hdigits := (allDigits_zeros (-point).toNat).append (allDigits_ofNat d.digits)
  have hne : zeros (-point).toNat ++ Text.ofNat d.digits ≠ [] :=
    List.append_ne_nil_of_right_ne_nil _ (ofNat_ne_nil _)
  refine ⟨⟨negative, zeros 1, zeros (-point).toNat ++ Text.ofNat d.digits, none, isWhole_zero, hdigits,
    fun _ hp => nomatch hp⟩, ?_, ?_⟩
  · rw [text, fractionText, if_neg hne, Text.join, List.flatten_cons, List.flatten_cons,
      List.flatten_cons, List.flatten_nil, List.append_nil]
    exact congrArg _ (congrArg _ (List.append_nil _))
  · refine NumberText.value_float d (.inl hne) (k := 0) ?_ ?_
    · rw [ofDigits_zeros_append, ofDigits_zeros_append, ofDigits_ofNat, Nat.pow_zero, Nat.mul_one]
    · show 0 - ((zeros (-point).toNat ++ Text.ofNat d.digits).length : Int) + (0 : Nat) = _
      rw [List.length_append, zeros, List.length_replicate]
      omega

/-- Digits before the point, filled up with zeros, and a zero after it. -/
theorem NumberText.exists_large (hd : d.digits ≠ 0) {fill : Nat} (hfill : (fill : Int) = d.exponent) :
    ∃ n : NumberText,
      n.text = sign negative ++ Text.join [Text.ofNat d.digits, zeros fill, ".0"] ∧
      n.value = .float (ofDecimal negative d.digits d.exponent) := by
  have hwhole : IsWhole (Text.ofNat d.digits ++ zeros fill) :=
    isWhole_of_head? hd ((allDigits_ofNat _).append (allDigits_zeros _))
      (List.head?_append_of_ne_nil _ (ofNat_ne_nil _))
  refine ⟨⟨negative, Text.ofNat d.digits ++ zeros fill, zeros 1, none, hwhole, allDigits_zeros 1,
    fun _ hp => nomatch hp⟩, ?_, ?_⟩
  · rw [text, Text.join, List.flatten_cons, List.flatten_cons, List.flatten_cons, List.flatten_nil,
      ← List.append_assoc (Text.ofNat d.digits)]
    rfl
  · refine NumberText.value_float d (.inl (List.cons_ne_nil _ _)) (k := fill + 1) ?_ ?_
    · have hzeros : zeros fill ++ zeros 1 = zeros (fill + 1) := List.replicate_append_replicate
      rw [List.append_assoc, hzeros, ofDigits_append_zeros, ofDigits_ofNat]
    · show 0 - 1 + ((fill + 1 : Nat) : Int) = _
      omega

theorem isWhole_take (hd : d.digits ≠ 0) {before : Nat} (h0 : 0 < before) :
    IsWhole ((Text.ofNat d.digits).take before) := by
  refine isWhole_of_head? hd ((allDigits_ofNat _).of_sublist (List.take_sublist _ _)) ?_
  rw [List.head?_take, if_neg (by omega)]

theorem allDigits_drop (before : Nat) : AllDigits ((Text.ofNat d.digits).drop before) :=
  (allDigits_ofNat _).of_sublist (List.drop_sublist _ _)

theorem ofDigits_take_append_drop (before : Nat) :
    ofDigits ((Text.ofNat d.digits).take before ++ (Text.ofNat d.digits).drop before) =
      d.digits * 10 ^ 0 := by
  rw [List.take_append_drop, ofDigits_ofNat, Nat.pow_zero, Nat.mul_one]

/-- Digits on either side of the point. -/
theorem NumberText.exists_split (hd : d.digits ≠ 0) {before : Nat} (h0 : 0 < before)
    (hlt : before < (Text.ofNat d.digits).length)
    (hbefore : (before : Int) = (Text.ofNat d.digits).length + d.exponent) : ∃ n : NumberText,
      n.text = sign negative ++ Text.join [(Text.ofNat d.digits).take before, ".",
        (Text.ofNat d.digits).drop before] ∧
      n.value = .float (ofDecimal negative d.digits d.exponent) := by
  have hne : (Text.ofNat d.digits).drop before ≠ [] := by
    rw [ne_eq, List.drop_eq_nil_iff]
    omega
  refine ⟨⟨negative, _, _, none, isWhole_take d hd h0, allDigits_drop d before,
    fun _ hp => nomatch hp⟩, ?_, ?_⟩
  · rw [text, fractionText, if_neg hne]
    rfl
  · refine NumberText.value_float d (.inl hne) (ofDigits_take_append_drop d before) ?_
    show 0 - (((Text.ofNat d.digits).drop before).length : Int) + (0 : Nat) = _
    rw [List.length_drop]
    omega

theorem mantissa_eq {ds : Text} (hds : ds ≠ []) :
    (if ds.length = 1 then ds else Text.join [ds.take 1, ".", ds.drop 1]) =
      ds.take 1 ++ if ds.drop 1 = [] then [] else CodePoint.ofChar '.' :: ds.drop 1 := by
  have hlen := List.length_pos_of_ne_nil hds
  by_cases h : ds.length = 1
  · rw [if_pos h, if_pos (List.drop_eq_nil_iff.mpr (by omega)), List.append_nil,
      List.take_of_length_le (by omega)]
  · rw [if_neg h, if_neg (by rw [List.drop_eq_nil_iff]; omega)]
    exact congrArg _ (congrArg (CodePoint.ofChar '.' :: ·) (List.append_nil _))

/-- One digit before the point, the others after it, and an exponent. -/
theorem NumberText.exists_power (hd : d.digits ≠ 0) (fill : Nat) {power : Int}
    (hpower : power + 1 = (Text.ofNat d.digits).length + d.exponent) : ∃ n : NumberText,
      n.text = sign negative ++ Text.join [if (Text.ofNat d.digits).length = 1 then Text.ofNat d.digits
          else Text.join [(Text.ofNat d.digits).take 1, ".", (Text.ofNat d.digits).drop 1],
        "e", if power < 0 then "-" else "+", zeros fill, Text.ofNat power.natAbs] ∧
      n.value = .float (ofDecimal negative d.digits d.exponent) := by
  have hlen := List.length_pos_of_ne_nil (ofNat_ne_nil d.digits)
  have hpowerDigits : zeros fill ++ Text.ofNat power.natAbs ≠ [] :=
    List.append_ne_nil_of_right_ne_nil _ (ofNat_ne_nil _)
  refine ⟨⟨negative, _, _, some (decide (power < 0), zeros fill ++ Text.ofNat power.natAbs),
    isWhole_take d hd Nat.one_pos, allDigits_drop d 1, ?_⟩, ?_, ?_⟩
  · rintro _ ⟨⟩
    exact ⟨hpowerDigits, (allDigits_zeros _).append (allDigits_ofNat _)⟩
  · have hsign : (if power < 0 then Text.ofString "-" else Text.ofString "+") =
        [CodePoint.ofChar (if power < 0 then '-' else '+')] := by split <;> rfl
    rw [mantissa_eq (ofNat_ne_nil _), hsign]
    simp only [text, fractionText, powerText, Text.join, List.flatten_cons, List.flatten_nil,
      List.append_nil, List.append_assoc, decide_eq_true_eq]
    rfl
  · refine NumberText.value_float d (.inr (Option.some_ne_none _)) (ofDigits_take_append_drop d 1) ?_
    have hexponent : (if decide (power < 0) then
        -(ofDigits (zeros fill ++ Text.ofNat power.natAbs) : Int)
        else ofDigits (zeros fill ++ Text.ofNat power.natAbs)) = power := by
      rw [ofDigits_zeros_append, ofDigits_ofNat]
      simp only [decide_eq_true_eq]
      omega
    show (if decide (power < 0) then -(ofDigits (zeros fill ++ Text.ofNat power.natAbs) : Int)
      else ofDigits (zeros fill ++ Text.ofNat power.natAbs)) -
        (((Text.ofNat d.digits).drop 1).length : Int) + (0 : Nat) = _
    rw [hexponent, List.length_drop]
    omega

/-- Every layout of digits is the text of a number, and of the one that the digits stand for. -/
theorem NumberText.exists_layout (hd : d.digits ≠ 0) : ∃ n : NumberText,
    n.text = sign negative ++ d.layout ∧
      n.value = .float (ofDecimal negative d.digits d.exponent) := by
  unfold Digits.layout
  dsimp only
  rw [if_neg hd]
  split
  · next hrange =>
    split
    · next hpoint => exact exists_small negative d hpoint rfl
    · next hpoint =>
      split
      · next hlen => exact exists_large negative d hd (by omega)
      · next hlen => exact exists_split negative d hd (by omega) (by omega) (by omega)
  · exact exists_power negative d hd _ (by omega)

end Layout

theorem NumberText.exists_zero (negative : Bool) : ∃ n : NumberText,
    n.text = sign negative ++ Text.ofString "0.0" ∧ n.value = .float (zero negative) := by
  refine ⟨⟨negative, zeros 1, zeros 1, none, isWhole_zero, allDigits_zeros 1, fun _ hp => nomatch hp⟩,
    rfl, ?_⟩
  show Json.float (ofDecimal negative (ofDigits (zeros 2)) _) = _
  rw [ofDigits_zeros, ofDecimal_zero]

/-- A finite number is written as the text of a number that is read as itself. -/
theorem NumberText.exists_finite (x : Finite) : ∃ n : NumberText,
    n.text = renderFloat (.finite x) ∧ n.value = .float (.finite x) := by
  have htext : renderFloat (.finite x) = sign x.negative ++ x.shortest.layout := rfl
  rw [htext]
  by_cases hx : x.significand = 0
  · have hlayout : x.shortest.layout = Text.ofString "0.0" := by
      rw [Finite.shortest, if_pos hx]
      rfl
    rw [hlayout, ← zero_of_significand hx]
    exact exists_zero x.negative
  · obtain ⟨hvalue, hd⟩ := spell_shortest hx
    rw [← hvalue]
    exact exists_layout x.negative x.shortest hd

/-! ### Telling numbers from the rest -/

namespace NumberText

variable (n : NumberText) (rest : Text)

/-- A number begins with a digit, or with a hyphen and a digit. -/
theorem exists_digit : ∃ d t, isDigit d ∧
    (n.text ++ rest = d :: t ∨ n.text ++ rest = CodePoint.ofChar '-' :: d :: t) := by
  obtain ⟨d, ds, hw⟩ := List.exists_cons_of_ne_nil n.isWhole.ne_nil
  refine ⟨d, ds ++ (n.fractionText ++ n.powerText) ++ rest,
    n.isWhole.digits d (hw ▸ List.mem_cons_self), ?_⟩
  rw [text, sign, hw]
  cases n.negative with
  | true => exact .inr rfl
  | false => exact .inl rfl

theorem isAt_text {c : Char} (hdigit : isDigit (CodePoint.ofChar c) = false)
    (hsign : CodePoint.ofChar '-' ≠ CodePoint.ofChar c) (position : Nat) :
    Cursor.isAt ⟨position, n.text ++ rest⟩ c = false := by
  obtain ⟨d, t, hd, h | h⟩ := n.exists_digit rest
  · rw [h]
    refine beq_eq_false_iff_ne.mpr fun he => ?_
    rw [Option.some.inj he, hdigit] at hd
    cases hd
  · rw [h]
    exact beq_eq_false_iff_ne.mpr fun he => hsign (Option.some.inj he)

theorem isPrefixOf_head {name : String} {c : Char} {s t : Text} {d : CodePoint}
    (hname : Text.ofString name = CodePoint.ofChar c :: s) (hd : (CodePoint.ofChar c == d) = false) :
    (Text.ofString name).isPrefixOf (d :: t) = false := by
  rw [hname, List.isPrefixOf, hd, Bool.false_and]

theorem wordAt?_none {cursor : Cursor} (h : ∀ name ∈ ["null", "true", "false", "NaN", "Infinity",
    "-Infinity"], (Text.ofString name).isPrefixOf cursor.rest = false) : wordAt? cursor = none := by
  simp only [List.forall_mem_cons, List.not_mem_nil, false_implies, implies_true, and_true] at h
  obtain ⟨h1, h2, h3, h4, h5, h6⟩ := h
  simp only [wordAt?, h1, h2, h3, h4, h5, h6]
  rfl

/-- No word begins as a number does. -/
theorem wordAt?_text (position : Nat) : wordAt? ⟨position, n.text ++ rest⟩ = none := by
  obtain ⟨d, t, hd, h⟩ := n.exists_digit rest
  have hne (c : Char) (hc : isDigit (CodePoint.ofChar c) = false) :
      (CodePoint.ofChar c == d) = false := beq_eq_false_iff_ne.mpr fun he => by
    rw [he, hd] at hc
    cases hc
  refine wordAt?_none ?_
  simp only [List.forall_mem_cons, List.not_mem_nil, false_implies, implies_true, and_true]
  rcases h with h | h
  · rw [h]
    exact ⟨isPrefixOf_head rfl (hne 'n' rfl), isPrefixOf_head rfl (hne 't' rfl),
      isPrefixOf_head rfl (hne 'f' rfl), isPrefixOf_head rfl (hne 'N' rfl),
      isPrefixOf_head rfl (hne 'I' rfl), isPrefixOf_head rfl (hne '-' rfl)⟩
  · rw [h]
    refine ⟨isPrefixOf_head rfl rfl, isPrefixOf_head rfl rfl, isPrefixOf_head rfl rfl,
      isPrefixOf_head rfl rfl, isPrefixOf_head rfl rfl, ?_⟩
    have hname : Text.ofString "-Infinity" =
        CodePoint.ofChar '-' :: CodePoint.ofChar 'I' :: Text.ofString "nfinity" := rfl
    rw [hname, List.isPrefixOf, List.isPrefixOf, hne 'I' rfl, Bool.false_and, Bool.and_false]

end NumberText

end Json

end LedgerWire
