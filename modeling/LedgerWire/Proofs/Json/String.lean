import LedgerWire.Json.Reader
import LedgerWire.Json.Writer
import LedgerWire.Proofs.Text.Hex
import LedgerWire.Proofs.Text.Utf8
import Mathlib.Data.List.Chain

/-!
# Strings in documents

A string that was written is read as itself, if no two of its code points are the halves of a surrogate
pair. No string that was read has such a pair, unless the text itself has surrogates, which no file
holds: `Taken` is one step of the reader, and only a unit that is not followed by the other half of its
pair is taken alone.
-/

namespace LedgerWire

namespace Json

/-- No surrogate pair stands in the text as two code points. -/
def Joined (t : Text) : Prop := t.IsChain fun c d => ¬ (c.isHighSurrogate ∧ d.isLowSurrogate)

/-! ### Steps of the reader -/

/-- What follows a unit is not the other half of a pair. -/
def NoLowAhead (t : Text) : Prop := ∀ s u b₁ b₂ b₃ b₄ after,
  t = s :: u :: b₁ :: b₂ :: b₃ :: b₄ :: after → after ≠ [] → s.val = 0x5C → u.val = 0x75 →
    ∃ low, hexUnit? b₁ b₂ b₃ b₄ = some low ∧ (CodePoint.ofNat low).isLowSurrogate = false

/-- A code point is taken from the beginning of a text, and the rest is left. -/
inductive Taken : CodePoint → Text → Text → Prop
  | plain {c : CodePoint} {rest : Text} (hlow : 0x20 ≤ c.val) (hquote : c.val ≠ 0x22)
      (hslash : c.val ≠ 0x5C) : Taken c (c :: rest) rest
  | short {c s e : CodePoint} {rest : Text} (hs : s.val = 0x5C) (he : e.val ≠ 0x75)
      (hc : escape? e = some c) : Taken c (s :: e :: rest) rest
  | unit {s e a₁ a₂ a₃ a₄ : CodePoint} {rest : Text} {n : Nat} (hs : s.val = 0x5C) (he : e.val = 0x75)
      (hn : hexUnit? a₁ a₂ a₃ a₄ = some n) (hrest : rest ≠ [])
      (halone : (CodePoint.ofNat n).isHighSurrogate → NoLowAhead rest) :
      Taken (CodePoint.ofNat n) (s :: e :: a₁ :: a₂ :: a₃ :: a₄ :: rest) rest
  | pair {s e a₁ a₂ a₃ a₄ s' e' b₁ b₂ b₃ b₄ : CodePoint} {rest : Text} {high low : Nat}
      (hs : s.val = 0x5C) (he : e.val = 0x75) (hs' : s'.val = 0x5C) (he' : e'.val = 0x75)
      (hhigh : hexUnit? a₁ a₂ a₃ a₄ = some high) (hlow : hexUnit? b₁ b₂ b₃ b₄ = some low)
      (hisHigh : (CodePoint.ofNat high).isHighSurrogate)
      (hisLow : (CodePoint.ofNat low).isLowSurrogate) (hrest : rest ≠ []) :
      Taken (CodePoint.ofNat (joinSurrogates high low))
        (s :: e :: a₁ :: a₂ :: a₃ :: a₄ :: s' :: e' :: b₁ :: b₂ :: b₃ :: b₄ :: rest) rest

/-- Puts a code point in front of a string that was read. -/
def found (c : CodePoint) (tail : Except Fault (Text × Cursor)) : Except Fault (Text × Cursor) :=
  tail.map fun read => (c :: read.1, read.2)

section Steps

variable {start position : Nat} {c : CodePoint} {s t rest : Text} {cursor : Cursor}

theorem stringBody_quote (hc : c.val = 0x22) :
    stringBody start position (c :: rest) = .ok ([], ⟨position + 1, rest⟩) := by
  rw [stringBody.eq_def]
  dsimp only
  rw [if_pos hc]

/-- The reader goes on after what it takes. -/
theorem stringBody_taken (h : Taken c t rest) (start position : Nat) : ∃ next,
    stringBody start position t = found c (stringBody start next rest) := by
  rw [stringBody.eq_def]
  cases h with
  | plain hlow hquote hslash =>
    dsimp only
    rw [if_neg hquote, if_neg (by omega), if_pos hslash]
    exact ⟨_, rfl⟩
  | short hs he hc =>
    dsimp only
    rw [if_neg (by omega), if_neg (by omega), if_neg (by omega), if_pos he, hc]
    exact ⟨_, rfl⟩
  | @unit s e a₁ a₂ a₃ a₄ _ n hs he hn hrest halone =>
    refine ⟨position + 6, ?_⟩
    dsimp only
    rw [if_neg (by omega), if_neg (by omega), if_neg (by omega), if_neg (by omega),
      if_neg (by rw [List.isEmpty_iff]; exact hrest), hn]
    dsimp only
    cases hhigh : (CodePoint.ofNat n).isHighSurrogate with
    | false => rfl
    | true =>
      rw [if_neg (by decide)]
      split
      · next s' u b₁ b₂ b₃ b₄ after =>
        split
        · rfl
        · next hcond =>
          simp only [Bool.or_eq_true, List.isEmpty_iff, decide_eq_true_eq, not_or, not_not] at hcond
          obtain ⟨low, hlow, hno⟩ :=
            halone hhigh s' u b₁ b₂ b₃ b₄ after rfl hcond.1.1 hcond.1.2 hcond.2
          rw [hlow]
          dsimp only
          rw [hno]
          rfl
      · rfl
  | pair hs he hs' he' hhigh hlow hisHigh hisLow hrest =>
    have hempty : rest.isEmpty = false := List.isEmpty_eq_false_iff.mpr hrest
    dsimp only
    rw [if_neg (by omega), if_neg (by omega), if_neg (by omega), if_neg (by omega),
      List.isEmpty_cons, if_neg Bool.false_ne_true, hhigh]
    dsimp only
    rw [hisHigh, hempty, hs', he', hlow]
    dsimp only
    rw [hisLow]
    exact ⟨_, rfl⟩

theorem found_eq_ok {tail : Except Fault (Text × Cursor)} (h : found c tail = .ok (s, cursor)) :
    ∃ s', s = c :: s' ∧ tail = .ok (s', cursor) := by
  obtain ⟨⟨s', _⟩, htail, heq⟩ := map_eq_ok.mp h
  obtain ⟨rfl, rfl⟩ := Prod.mk.inj heq
  exact ⟨s', rfl, htail⟩

/-- A string that was read begins with what was taken, or ends with a quote. -/
theorem stringBody_eq_ok (h : stringBody start position t = .ok (s, cursor)) :
    (∃ q, t = q :: cursor.rest ∧ s = []) ∨ ∃ c s' rest next, s = c :: s' ∧ Taken c t rest ∧
      stringBody start next rest = .ok (s', cursor) := by
  fun_induction stringBody start position t with
  | case1 => cases h
  | case2 position c rest hc =>
    cases h
    exact .inl ⟨c, rfl, rfl⟩
  | case3 => cases h
  | case4 position c rest _ hquote hlow hslash =>
    obtain ⟨s', rfl, htail⟩ := found_eq_ok h
    exact .inr ⟨_, _, _, _, rfl, .plain (by omega) hquote hslash, htail⟩
  | case5 => cases h
  | case6 position b _ hquote hlow hslash e rest he c hc =>
    obtain ⟨s', rfl, htail⟩ := found_eq_ok h
    exact .inr ⟨_, _, _, _, rfl, .short (by omega) he hc, htail⟩
  | case7 => cases h
  | case8 => cases h
  | case9 => cases h
  | case10 position b _ hquote hlow hslash e he a₁ a₂ a₃ a₄ rest hrest n hn alone hhigh =>
    obtain ⟨s', rfl, htail⟩ := found_eq_ok h
    refine .inr ⟨_, _, _, _, rfl, .unit (by omega) (by omega) hn (by simpa using hrest) ?_, htail⟩
    intro hc
    rw [hc] at hhigh
    cases hhigh
  | case11 position b _ hquote hlow hslash e he a₁ a₂ a₃ a₄ n hn hhigh s' u b₁ b₂ b₃ b₄ after hcond =>
    obtain ⟨s', rfl, htail⟩ := found_eq_ok h
    refine .inr ⟨_, _, _, _, rfl, .unit (by omega) (by omega) hn (List.cons_ne_nil _ _) ?_, htail⟩
    rintro - _ _ _ _ _ _ _ ⟨⟩ hafter hs hu
    rw [List.isEmpty_eq_false_iff.mpr hafter, hs, hu] at hcond
    cases hcond
  | case12 => cases h
  | case13 position b _ hquote hlow hslash e he a₁ a₂ a₃ a₄ n hn hhigh s' u b₁ b₂ b₃ b₄ after hcond
      low hlow' hisLow =>
    obtain ⟨s', rfl, htail⟩ := found_eq_ok h
    simp only [Bool.or_eq_true, List.isEmpty_iff, decide_eq_true_eq, not_or, not_not] at hcond
    obtain ⟨⟨hafter, hs⟩, hu⟩ := hcond
    exact .inr ⟨_, _, _, _, rfl, .pair (by omega) (by omega) hs hu hn hlow' (by simpa using hhigh)
      hisLow hafter, htail⟩
  | case14 position b _ hquote hlow hslash e he a₁ a₂ a₃ a₄ n hn hhigh s' u b₁ b₂ b₃ b₄ after hcond
      low hlow' hisLow =>
    obtain ⟨s', rfl, htail⟩ := found_eq_ok h
    refine .inr ⟨_, _, _, _, rfl, .unit (by omega) (by omega) hn (List.cons_ne_nil _ _) ?_, htail⟩
    rintro - _ _ _ _ _ _ _ ⟨⟩ - - -
    exact ⟨_, hlow', Bool.not_eq_true _ ▸ hisLow⟩
  | case15 position b _ hquote hlow hslash e he a₁ a₂ a₃ a₄ rest hrest n hn alone hhigh hshort =>
    obtain ⟨s', rfl, htail⟩ := found_eq_ok h
    refine .inr ⟨_, _, _, _, rfl, .unit (by omega) (by omega) hn (by simpa using hrest) ?_, htail⟩
    intro _ s u b₁ b₂ b₃ b₄ after heq
    exact (hshort _ _ _ _ _ _ _ heq).elim
  | case16 => cases h

end Steps

/-! ### Reading what was written -/

theorem isHighSurrogate_ofNat {n : Nat} (h : n < 0x110000) :
    (CodePoint.ofNat n).isHighSurrogate ↔ 0xD800 ≤ n ∧ n ≤ 0xDBFF := by
  simp only [CodePoint.isHighSurrogate, CodePoint.val_ofNat h, Bool.and_eq_true, decide_eq_true_eq]

theorem isLowSurrogate_ofNat {n : Nat} (h : n < 0x110000) :
    (CodePoint.ofNat n).isLowSurrogate ↔ 0xDC00 ≤ n ∧ n ≤ 0xDFFF := by
  simp only [CodePoint.isLowSurrogate, CodePoint.val_ofNat h, Bool.and_eq_true, decide_eq_true_eq]

/-- The digits of a unit spell it. -/
theorem exists_hexDigits {n : Nat} (h : n < 0x10000) : ∃ a₁ a₂ a₃ a₄,
    unitEscape n = [CodePoint.ofChar '\\', CodePoint.ofChar 'u', a₁, a₂, a₃, a₄] ∧
      hexUnit? a₁ a₂ a₃ a₄ = some n := by
  refine ⟨_, _, _, _, rfl, ?_⟩
  have hdigit (k : Nat) := Text.hexValue?_hexDigit (k % 16) (Nat.mod_lt _ (by decide))
  simp only [hexUnit?, hdigit, Option.bind_eq_bind, Option.bind_some, Option.pure_def,
    Option.some.injEq]
  omega

/-- The ways in which a code point is written. -/
inductive Part (c : CodePoint) : Text → Prop
  | plain (hlow : 0x20 ≤ c.val) (hquote : c.val ≠ 0x22) (hslash : c.val ≠ 0x5C) : Part c [c]
  | short (e : CodePoint) (he : e.val ≠ 0x75) (hc : escape? e = some c) :
    Part c [CodePoint.ofChar '\\', e]
  | unit (h : c.val < 0x10000) : Part c (unitEscape c.val)
  | pair (h : 0x10000 ≤ c.val) :
    Part c (unitEscape (0xD800 + (c.val - 0x10000) / 0x400) ++
      unitEscape (0xDC00 + (c.val - 0x10000) % 0x400))

theorem part_short {c : CodePoint} (e : CodePoint) (he : e.val ≠ 0x75) {n : Nat}
    (hn : escape? e = some (CodePoint.ofNat n)) (hc : c.val = n) :
    Part c [CodePoint.ofChar '\\', e] := by
  refine .short e he ?_
  rw [hn, ← hc, CodePoint.ofNat_val]

theorem part_stringPart (c : CodePoint) : Part c (stringPart c) := by
  unfold stringPart
  dsimp only
  split_ifs with h1 h2 h3 h4 h5 h6 h7 h8 h9
  · exact part_short (CodePoint.ofChar '"') (by decide) rfl h1
  · exact part_short (CodePoint.ofChar '\\') (by decide) rfl h2
  · exact part_short (CodePoint.ofChar 'n') (by decide) rfl h3
  · exact part_short (CodePoint.ofChar 'r') (by decide) rfl h4
  · exact part_short (CodePoint.ofChar 't') (by decide) rfl h5
  · exact part_short (CodePoint.ofChar 'f') (by decide) rfl h6
  · exact part_short (CodePoint.ofChar 'b') (by decide) rfl h7
  · exact .plain h8.1 h1 h2
  · exact .unit h9
  · exact .pair (by omega)

theorem noLowAhead_quote (rest : Text) : NoLowAhead (CodePoint.ofChar '"' :: rest) := by
  rintro s u b₁ b₂ b₃ b₄ after ⟨⟩ - hs -
  exact absurd hs (by decide)

theorem noLowAhead_unit {n : Nat} (h : n < 0x10000)
    (hn : (CodePoint.ofNat n).isLowSurrogate = false) (rest : Text) :
    NoLowAhead (unitEscape n ++ rest) := by
  obtain ⟨a₁, a₂, a₃, a₄, htext, hunit⟩ := exists_hexDigits h
  rw [htext]
  rintro s u b₁ b₂ b₃ b₄ after ⟨⟩ - - -
  exact ⟨n, hunit, hn⟩

/-- The part of a code point is no second half, unless the code point is one. -/
theorem noLowAhead_part {c : CodePoint} {part : Text} (h : Part c part)
    (hc : c.isLowSurrogate = false) (rest : Text) : NoLowAhead (part ++ rest) := by
  cases h with
  | plain _ _ hslash =>
    rintro s u b₁ b₂ b₃ b₄ after ⟨⟩ - hs -
    exact absurd hs hslash
  | short e he _ =>
    rintro s u b₁ b₂ b₃ b₄ after ⟨⟩ - - hu
    exact absurd hu he
  | unit h => exact noLowAhead_unit h (by simpa using hc) rest
  | pair h =>
    have hlt := c.isLt
    rw [List.append_assoc]
    refine noLowAhead_unit (by omega) ?_ _
    rw [← Bool.not_eq_true, isLowSurrogate_ofNat (by omega)]
    omega

/-- A part is taken as its code point. -/
theorem taken_part {c : CodePoint} {part rest : Text} (h : Part c part) (hrest : rest ≠ [])
    (hnext : c.isHighSurrogate → NoLowAhead rest) : Taken c (part ++ rest) rest := by
  cases h with
  | plain hlow hquote hslash => exact .plain hlow hquote hslash
  | short e he hc => exact .short rfl he hc
  | unit h =>
    obtain ⟨a₁, a₂, a₃, a₄, htext, hunit⟩ := exists_hexDigits h
    have htaken : Taken (CodePoint.ofNat c.val) (unitEscape c.val ++ rest) rest := by
      rw [htext]
      exact .unit rfl rfl hunit hrest (by simpa using hnext)
    rwa [CodePoint.ofNat_val] at htaken
  | pair h =>
    have hlt := c.isLt
    have hhigh : 0xD800 + (c.val - 0x10000) / 0x400 < 0x10000 := by omega
    have hlow : 0xDC00 + (c.val - 0x10000) % 0x400 < 0x10000 := by omega
    have hjoin : joinSurrogates (0xD800 + (c.val - 0x10000) / 0x400)
        (0xDC00 + (c.val - 0x10000) % 0x400) = c.val := by
      unfold joinSurrogates
      omega
    obtain ⟨a₁, a₂, a₃, a₄, htext, hunit⟩ := exists_hexDigits hhigh
    obtain ⟨b₁, b₂, b₃, b₄, htext', hunit'⟩ := exists_hexDigits hlow
    rw [htext, htext', ← CodePoint.ofNat_val c, ← hjoin]
    exact .pair rfl rfl rfl rfl hunit hunit' ((isHighSurrogate_ofNat (by omega)).mpr (by omega))
      ((isLowSurrogate_ofNat (by omega)).mpr (by omega)) hrest

/-- A string is read as it was written, up to its closing quote. -/
theorem stringBody_parts {t : Text} (ht : Joined t) (start position : Nat) (rest : Text) : ∃ next,
    stringBody start position (t.flatMap stringPart ++ CodePoint.ofChar '"' :: rest) =
      .ok (t, ⟨next, rest⟩) := by
  induction t generalizing position with
  | nil => exact ⟨_, stringBody_quote rfl⟩
  | cons c t ih =>
    have hnext : c.isHighSurrogate →
        NoLowAhead (t.flatMap stringPart ++ CodePoint.ofChar '"' :: rest) := by
      intro hc
      cases t with
      | nil => exact noLowAhead_quote rest
      | cons d t =>
        have hd : ¬ d.isLowSurrogate := fun hd => (List.isChain_cons_cons.mp ht).1 ⟨hc, hd⟩
        rw [List.flatMap_cons, List.append_assoc]
        exact noLowAhead_part (part_stringPart d) (Bool.not_eq_true _ ▸ hd) _
    obtain ⟨middle, hpart⟩ := stringBody_taken (taken_part (part_stringPart c)
      (List.append_ne_nil_of_right_ne_nil _ (List.cons_ne_nil _ _)) hnext) start position
    obtain ⟨next, htail⟩ := ih ht.tail middle
    refine ⟨next, ?_⟩
    rw [List.flatMap_cons, List.append_assoc, hpart, htail]
    rfl

theorem stringAt_renderString {t : Text} (ht : Joined t) (position : Nat) (rest : Text) : ∃ next,
    stringAt ⟨position, renderString t ++ rest⟩ = .ok (t, ⟨next, rest⟩) := by
  have hrest : (renderString t ++ rest).drop 1 =
      t.flatMap stringPart ++ CodePoint.ofChar '"' :: rest := by
    show t.flatMap stringPart ++ [CodePoint.ofChar '"'] ++ rest = _
    rw [List.append_assoc]
    rfl
  unfold stringAt
  rw [hrest]
  exact stringBody_parts ht _ _ rest

/-! ### What was read -/

/-- The code points that a file can hold. -/
def Scalar (t : Text) : Prop := ∀ c ∈ t, c.isSurrogate = false

theorem Scalar.suffix {s t : Text} (ht : Scalar t) (h : s <:+ t) : Scalar s :=
  fun c hc => ht c (h.subset hc)

theorem Taken.suffix {c : CodePoint} {t rest : Text} (h : Taken c t rest) : rest <:+ t := by
  cases h with
  | plain => exact List.suffix_cons _ _
  | short => exact ⟨[_, _], rfl⟩
  | unit => exact ⟨[_, _, _, _, _, _], rfl⟩
  | pair => exact ⟨[_, _, _, _, _, _, _, _, _, _, _, _], rfl⟩

theorem isSurrogate_of_high {c : CodePoint} (h : c.isHighSurrogate) : c.isSurrogate := by
  simp only [CodePoint.isHighSurrogate, CodePoint.isSurrogate, Bool.and_eq_true,
    decide_eq_true_eq] at h ⊢
  omega

theorem isSurrogate_of_low {c : CodePoint} (h : c.isLowSurrogate) : c.isSurrogate := by
  simp only [CodePoint.isLowSurrogate, CodePoint.isSurrogate, Bool.and_eq_true,
    decide_eq_true_eq] at h ⊢
  omega

theorem isSurrogate_escape {e c : CodePoint} (h : escape? e = some c) : c.isSurrogate = false := by
  unfold escape? at h
  split at h <;> cases h
  case h_1 hval | h_2 hval | h_3 hval => rw [CodePoint.isSurrogate, hval]; rfl
  all_goals rfl

theorem hexUnit?_lt {a₁ a₂ a₃ a₄ : CodePoint} {n : Nat} (h : hexUnit? a₁ a₂ a₃ a₄ = some n) :
    n < 0x10000 := by
  obtain ⟨d₁, h₁, h⟩ := Option.bind_eq_some_iff.mp h
  obtain ⟨d₂, h₂, h⟩ := Option.bind_eq_some_iff.mp h
  obtain ⟨d₃, h₃, h⟩ := Option.bind_eq_some_iff.mp h
  obtain ⟨d₄, h₄, h⟩ := Option.bind_eq_some_iff.mp h
  obtain rfl := Option.some.inj h
  have := Text.hexValue?_lt h₁
  have := Text.hexValue?_lt h₂
  have := Text.hexValue?_lt h₃
  have := Text.hexValue?_lt h₄
  omega

/-- The code point of a pair lies beyond the surrogates. -/
theorem isSurrogate_join {high low : Nat} (h : high < 0x110000) (h' : low < 0x110000)
    (hhigh : (CodePoint.ofNat high).isHighSurrogate) (hlow : (CodePoint.ofNat low).isLowSurrogate) :
    (CodePoint.ofNat (joinSurrogates high low)).isSurrogate = false := by
  rw [isHighSurrogate_ofNat h] at hhigh
  rw [isLowSurrogate_ofNat h'] at hlow
  unfold joinSurrogates
  exact Utf8.isSurrogate_ofNat (by omega) (by omega)

/-- Only a unit stands for a surrogate, in a text without surrogates. -/
theorem Taken.unit_of_surrogate {c : CodePoint} {t rest : Text} (h : Taken c t rest) (ht : Scalar t)
    (hc : c.isSurrogate) : ∃ s e a₁ a₂ a₃ a₄ n, t = s :: e :: a₁ :: a₂ :: a₃ :: a₄ :: rest ∧
      s.val = 0x5C ∧ e.val = 0x75 ∧ hexUnit? a₁ a₂ a₃ a₄ = some n ∧ c = CodePoint.ofNat n ∧
      rest ≠ [] ∧ (c.isHighSurrogate → NoLowAhead rest) := by
  cases h with
  | plain => exact absurd hc (by rw [ht c List.mem_cons_self]; decide)
  | short _ _ hescape => exact absurd hc (by rw [isSurrogate_escape hescape]; decide)
  | unit hs he hn hrest halone => exact ⟨_, _, _, _, _, _, _, rfl, hs, he, hn, rfl, hrest, halone⟩
  | pair _ _ _ _ hhigh hlow hisHigh hisLow =>
    have hhigh := hexUnit?_lt hhigh
    have hlow := hexUnit?_lt hlow
    exact absurd hc (by rw [isSurrogate_join (by omega) (by omega) hisHigh hisLow]; decide)

/-- The second half of a pair is not taken after the first. -/
theorem Taken.joined {c d : CodePoint} {t rest rest' : Text} (h : Taken c t rest)
    (h' : Taken d rest rest') (ht : Scalar t) : ¬ (c.isHighSurrogate ∧ d.isLowSurrogate) := by
  rintro ⟨hc, hd⟩
  obtain ⟨_, _, _, _, _, _, _, -, -, -, -, -, -, halone⟩ :=
    h.unit_of_surrogate ht (isSurrogate_of_high hc)
  obtain ⟨s, e, a₁, a₂, a₃, a₄, n, rfl, hs, he, hn, rfl, hrest, -⟩ :=
    h'.unit_of_surrogate (ht.suffix h.suffix) (isSurrogate_of_low hd)
  obtain ⟨low, hlow, hno⟩ := halone hc s e a₁ a₂ a₃ a₄ rest' rfl hrest hs he
  obtain rfl := Option.some.inj (hn.symm.trans hlow)
  rw [hd] at hno
  cases hno

/-- A string that was read has no surrogate pair, and what is left is the end of the text. -/
theorem joined_of_stringBody {start position : Nat} {s t : Text} {cursor : Cursor} (ht : Scalar t)
    (h : stringBody start position t = .ok (s, cursor)) : Joined s ∧ cursor.rest <:+ t := by
  induction s generalizing position t with
  | nil =>
    rcases stringBody_eq_ok h with ⟨q, rfl, -⟩ | ⟨_, _, _, _, heq, -⟩
    · exact ⟨List.isChain_nil, List.suffix_cons _ _⟩
    · cases heq
  | cons c s ih =>
    rcases stringBody_eq_ok h with ⟨_, -, heq⟩ | ⟨c', s', rest, next, heq, htaken, htail⟩
    · cases heq
    · obtain ⟨rfl, rfl⟩ := List.cons_eq_cons.mp heq
      have hrest := ht.suffix htaken.suffix
      obtain ⟨hjoined, hsuffix⟩ := ih hrest htail
      refine ⟨?_, hsuffix.trans htaken.suffix⟩
      rcases stringBody_eq_ok htail with ⟨_, -, rfl⟩ | ⟨d, s', _, _, rfl, htaken', -⟩
      · exact List.isChain_singleton _
      · exact List.isChain_cons_cons.mpr ⟨htaken.joined htaken' ht, hjoined⟩

end Json

end LedgerWire
