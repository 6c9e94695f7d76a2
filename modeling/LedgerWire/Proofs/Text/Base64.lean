import LedgerWire.Proofs.Result
import LedgerWire.Text.Base64
import Mathlib.Data.List.Forall2

/-!
# Texts in base64

The texts that are read are letters of the alphabet with marks of padding behind them. Letters in groups
of four need none, and marks after them do not count; a last group of two or three is filled up to four.
The text that is written for some bytes is of this form and is read as those bytes.
-/

namespace LedgerWire

namespace Base64

variable {count padding n : Nat} {t ls : Text} {ns : List Nat} {c : CodePoint} {bs : Bytes}

/-! ### Letters and padding -/

/-- A letter or a digit of ASCII, a plus sign or a slash. -/
def IsLetter (c : CodePoint) : Prop :=
  (65 ≤ c.val ∧ c.val ≤ 90) ∨ (97 ≤ c.val ∧ c.val ≤ 122) ∨ (48 ≤ c.val ∧ c.val ≤ 57) ∨
    c.val = 0x2B ∨ c.val = 0x2F

/-- So many marks may stand behind so many letters. -/
def Closes (count marks : Nat) : Prop :=
  count % 4 = 0 ∨ (2 ≤ count % 4 ∧ count % 4 + marks = 4)

/-- Letters with the marks that may stand behind them; a mark does not stand alone. -/
def IsPadded (t : Text) : Prop :=
  ∃ ls marks, t = ls ++ List.replicate marks pad ∧ (∀ c ∈ ls, IsLetter c) ∧
    Closes ls.length marks ∧ (ls = [] → marks = 0)

/-- The text is letters, with the marks that may stand behind them, for the bytes. -/
def Represents (t : Text) (bs : Bytes) : Prop :=
  ∃ ls marks ns, t = ls ++ List.replicate marks pad ∧
    List.Forall₂ (fun c n => letterValue? c = some n) ls ns ∧ Closes ls.length marks ∧
      (ls = [] → marks = 0) ∧ bytesOfLetters ns = bs

theorem exists_letterValue? : (∃ n, letterValue? c = some n) ↔ IsLetter c := by
  unfold letterValue? IsLetter
  simp only [Bool.and_eq_true, decide_eq_true_eq]
  split_ifs with h1 h2 h3 h4 h5
  · exact iff_of_true ⟨_, rfl⟩ (by omega)
  · exact iff_of_true ⟨_, rfl⟩ (by omega)
  · exact iff_of_true ⟨_, rfl⟩ (by omega)
  · exact iff_of_true ⟨_, rfl⟩ (by omega)
  · exact iff_of_true ⟨_, rfl⟩ (by omega)
  · exact iff_of_false nofun (by omega)

theorem letterValue?_letter : ∀ n < 64, letterValue? (letter n) = some n := by decide

theorem ne_pad_of_letterValue? (h : letterValue? c = some n) : c ≠ pad := by
  rintro rfl
  cases h

theorem isAscii_of_letterValue? (h : letterValue? c = some n) : c.isAscii = true := by
  have hletter := exists_letterValue?.mp ⟨n, h⟩
  unfold IsLetter at hletter
  exact decide_eq_true (by omega)

theorem isLetter_of_forall₂ (h : List.Forall₂ (fun c n => letterValue? c = some n) ls ns) :
    ∀ c ∈ ls, IsLetter c := by
  induction h with
  | nil => nofun
  | cons head tail ih => exact List.forall_mem_cons.mpr ⟨exists_letterValue?.mp ⟨_, head⟩, ih⟩

theorem exists_forall₂ (h : ∀ c ∈ ls, IsLetter c) :
    ∃ ns, List.Forall₂ (fun c n => letterValue? c = some n) ls ns := by
  induction ls with
  | nil => exact ⟨[], .nil⟩
  | cons c ls ih =>
    obtain ⟨n, hn⟩ := exists_letterValue?.mpr (h c List.mem_cons_self)
    obtain ⟨ns, hns⟩ := ih fun d hd => h d (List.mem_cons_of_mem c hd)
    exact ⟨n :: ns, .cons hn hns⟩

/-! ### The scanner -/

theorem letters_pad (padded : Bool) : letters count padding padded (pad :: t) =
    if 2 ≤ count % 4 then
      if 4 ≤ count % 4 + (padding + 1) then
        if t.isEmpty then .ok [] else .error .dataAfterPadding
      else letters count (padding + 1) true t
    else letters count padding true t := by
  rw [letters, if_pos rfl]

/-! A text of marks only, taken apart. -/

theorem nil_of_marks {p : Nat → Prop} :
    (∃ marks, ([] : Text) = List.replicate marks pad ∧ p marks) ↔ p 0 := by
  constructor
  · rintro ⟨_ | marks, heq, hp⟩
    · exact hp
    · cases heq
  · intro hp
    exact ⟨0, rfl, hp⟩

theorem cons_of_marks {p : Nat → Prop} :
    (∃ marks, c :: t = List.replicate marks pad ∧ p marks) ↔
      c = pad ∧ ∃ marks, t = List.replicate marks pad ∧ p (marks + 1) := by
  constructor
  · rintro ⟨_ | marks, heq, hp⟩
    · cases heq
    · exact ⟨(List.cons.inj heq).1, marks, (List.cons.inj heq).2, hp⟩
  · rintro ⟨rfl, marks, rfl, hp⟩
    exact ⟨marks + 1, rfl, hp⟩

/-- Behind a mark there are only marks, and not more than fill up the group. -/
theorem letters_padded (h : count % 4 + padding < 4) : letters count padding true t = .ok ns ↔
    ns = [] ∧ ∃ marks, t = List.replicate marks pad ∧ Closes count (padding + marks) := by
  induction t generalizing padding with
  | nil =>
    have hclosed : Closes count (padding + 0) ↔ count % 4 = 0 := by
      unfold Closes
      omega
    rw [nil_of_marks, hclosed, letters]
    split_ifs with h0 h1
    · rw [Except.ok.injEq, eq_comm]
      exact (and_iff_left h0).symm
    · exact iff_of_false nofun fun hr => h0 hr.2
    · exact iff_of_false nofun fun hr => h0 hr.2
  | cons c t ih =>
    rw [cons_of_marks]
    by_cases hc : c = pad
    · subst hc
      rw [letters_pad, and_iff_right rfl]
      by_cases h2 : 2 ≤ count % 4
      · rw [if_pos h2]
        by_cases hfull : 4 ≤ count % 4 + (padding + 1)
        · -- the mark fills up the group, and nothing may follow it
          have hlast (marks : Nat) : Closes count (padding + (marks + 1)) ↔ marks = 0 := by
            unfold Closes
            omega
          simp only [hlast]
          rw [if_pos hfull]
          cases t with
          | nil =>
            rw [nil_of_marks, List.isEmpty_nil, if_pos rfl, Except.ok.injEq, eq_comm]
            exact (and_iff_left rfl).symm
          | cons d t =>
            rw [cons_of_marks, List.isEmpty_cons, if_neg Bool.false_ne_true]
            refine iff_of_false nofun ?_
            rintro ⟨-, -, marks, -, heq⟩
            exact absurd heq (Nat.succ_ne_zero marks)
        · have hnext (marks : Nat) :
              Closes count (padding + 1 + marks) ↔ Closes count (padding + (marks + 1)) := by
            rw [Nat.add_right_comm, Nat.add_assoc]
          rw [if_neg hfull, ih (by omega)]
          simp only [hnext]
      · -- after whole groups marks do not count
        have hfree (marks : Nat) :
            Closes count (padding + marks) ↔ Closes count (padding + (marks + 1)) := by
          unfold Closes
          omega
        rw [if_neg h2, ih h]
        exact and_congr_right fun _ => exists_congr fun marks => and_congr_right fun _ => hfree marks
    · rw [letters, if_neg hc]
      refine iff_of_false ?_ fun hr => hc hr.2.1
      cases letterValue? c <;> nofun

/-- What the scanner takes is letters and the marks that may stand behind them. -/
theorem letters_eq_ok : letters count 0 false t = .ok ns ↔ ∃ ls marks,
    t = ls ++ List.replicate marks pad ∧
      List.Forall₂ (fun c n => letterValue? c = some n) ls ns ∧ Closes (count + ls.length) marks := by
  induction t generalizing count ns with
  | nil =>
    constructor
    · intro h
      rw [letters] at h
      split_ifs at h with h0
      cases h
      exact ⟨[], 0, rfl, .nil, .inl h0⟩
    · rintro ⟨ls, marks, heq, hls, hclosed⟩
      obtain ⟨rfl, hmarks⟩ := List.append_eq_nil_iff.mp heq.symm
      obtain rfl : marks = 0 := by simpa using hmarks
      cases hls
      have h0 : count % 4 = 0 := by
        unfold Closes at hclosed
        simp only [List.length_nil, Nat.add_zero] at hclosed
        omega
      rw [letters, if_pos h0]
  | cons c t ih =>
    by_cases hc : c = pad
    · subst hc
      rw [letters_pad false, ← letters_pad true, letters_padded (by omega)]
      constructor
      · rintro ⟨rfl, marks, heq, hclosed⟩
        rw [Nat.zero_add] at hclosed
        exact ⟨[], marks, heq, .nil, hclosed⟩
      · rintro ⟨ls, marks, heq, hls, hclosed⟩
        cases hls with
        | nil => exact ⟨rfl, marks, heq, by rwa [Nat.zero_add]⟩
        | cons head tail => exact absurd (List.cons.inj heq).1.symm (ne_pad_of_letterValue? head)
    · rw [letters, if_neg hc]
      cases hvalue : letterValue? c with
      | none =>
        refine iff_of_false nofun ?_
        rintro ⟨ls, marks, heq, hls, -⟩
        cases hls with
        | nil =>
          cases marks with
          | zero => cases heq
          | succ marks => exact hc (List.cons.inj heq).1
        | cons head tail =>
          rw [(List.cons.inj heq).1, head] at hvalue
          cases hvalue
      | some n =>
        dsimp only
        rw [if_neg Bool.false_ne_true, map_eq_ok]
        constructor
        · rintro ⟨later, hlater, rfl⟩
          obtain ⟨ls, marks, rfl, hls, hclosed⟩ := ih.mp hlater
          rw [Nat.add_right_comm] at hclosed
          exact ⟨c :: ls, marks, rfl, .cons hvalue hls, hclosed⟩
        · rintro ⟨ls, marks, heq, hls, hclosed⟩
          cases hls with
          | nil =>
            cases marks with
            | zero => cases heq
            | succ marks => exact absurd (List.cons.inj heq).1 hc
          | @cons d m ls ns head tail =>
            obtain ⟨rfl, rfl⟩ := List.cons.inj heq
            obtain rfl : n = m := Option.some.inj (hvalue.symm.trans head)
            rw [List.length_cons, ← Nat.add_assoc, Nat.add_right_comm] at hclosed
            exact ⟨ns, ih.mpr ⟨ls, marks, rfl, tail, hclosed⟩, rfl⟩

/-- The scanner does not tell that a text is beyond ASCII. -/
theorem letters_ne_notAscii (padded : Bool) : letters count padding padded t ≠ .error .notAscii := by
  fun_induction letters count padding padded t with
  | case6 | case7 => assumption
  | case10 => exact fun h => absurd (map_eq_error.mp h) (by assumption)
  | _ => nofun

/-! ### Reading -/

theorem isAscii_padded {marks : Nat}
    (h : List.Forall₂ (fun c n => letterValue? c = some n) ls ns) :
    ∀ c ∈ ls ++ List.replicate marks pad, c.isAscii = true := by
  intro c hc
  rcases List.mem_append.mp hc with hc | hc
  · obtain ⟨n, hn⟩ := exists_letterValue?.mpr (isLetter_of_forall₂ h c hc)
    exact isAscii_of_letterValue? hn
  · rw [List.eq_of_mem_replicate hc]
    rfl

theorem decode_of_not_ascii (h : ¬ ∀ c ∈ t, c.isAscii = true) : decode t = .error .notAscii := by
  refine if_pos ?_
  simpa [List.any_eq_true] using h

theorem decode_of_ascii (h : ∀ c ∈ t, c.isAscii = true) : decode t =
    if t.head? = some pad then .error .leadingPadding
    else (letters 0 0 false t).map bytesOfLetters := by
  refine if_neg ?_
  simpa [List.any_eq_true] using h

theorem decode_ne_notAscii (h : ∀ c ∈ t, c.isAscii = true) : decode t ≠ .error .notAscii := by
  rw [decode_of_ascii h]
  split_ifs with hlead
  · nofun
  · exact fun hread => letters_ne_notAscii false (map_eq_error.mp hread)

/-- A text is read as the bytes it is for. -/
theorem decode_eq_ok : decode t = .ok bs ↔ Represents t bs := by
  constructor
  · intro h
    have hascii : ∀ c ∈ t, c.isAscii = true := by
      by_contra hnot
      rw [decode_of_not_ascii hnot] at h
      cases h
    rw [decode_of_ascii hascii] at h
    split_ifs at h with hlead
    obtain ⟨ns, hns, rfl⟩ := map_eq_ok.mp h
    obtain ⟨ls, marks, rfl, hls, hclosed⟩ := letters_eq_ok.mp hns
    rw [Nat.zero_add] at hclosed
    refine ⟨ls, marks, ns, rfl, hls, hclosed, ?_, rfl⟩
    rintro rfl
    cases marks with
    | zero => rfl
    | succ marks => exact absurd rfl hlead
  · rintro ⟨ls, marks, ns, rfl, hls, hclosed, halone, rfl⟩
    have hlead : (ls ++ List.replicate marks pad).head? ≠ some pad := by
      cases hls with
      | nil =>
        rw [halone rfl]
        nofun
      | cons head tail => exact fun h => ne_pad_of_letterValue? head (Option.some.inj h)
    rw [← Nat.zero_add ls.length] at hclosed
    rw [decode_of_ascii (isAscii_padded hls), if_neg hlead,
      letters_eq_ok.mpr ⟨ls, marks, rfl, hls, hclosed⟩]
    rfl

theorem exists_decode : (∃ bs, decode t = .ok bs) ↔ IsPadded t := by
  simp only [decode_eq_ok]
  constructor
  · rintro ⟨bs, ls, marks, ns, rfl, hls, hclosed, halone, -⟩
    exact ⟨ls, marks, rfl, isLetter_of_forall₂ hls, hclosed, halone⟩
  · rintro ⟨ls, marks, rfl, hletters, hclosed, halone⟩
    obtain ⟨ns, hls⟩ := exists_forall₂ hletters
    exact ⟨_, ls, marks, ns, rfl, hls, hclosed, halone, rfl⟩

/-! ### Writing -/

theorem ofNat_eq_byte {b : UInt8} (h : n = b.toNat) : UInt8.ofNat n = b := by
  rw [h, UInt8.ofNat_toNat]

/-- What is written is letters and marks for the bytes. -/
theorem represents_encode (bs : Bytes) : Represents (encode bs) bs := by
  fun_induction encode bs with
  | case1 a b c rest ih =>
    have ha := a.toNat_lt
    have hb := b.toNat_lt
    have hc := c.toNat_lt
    obtain ⟨ls, marks, ns, hrest, hls, hclosed, -, hbytes⟩ := ih
    refine ⟨_ :: _ :: _ :: _ :: ls, marks, _, by rw [hrest]; rfl,
      .cons (letterValue?_letter _ (by omega)) (.cons (letterValue?_letter _ (by omega))
        (.cons (letterValue?_letter _ (by omega)) (.cons (letterValue?_letter _ (by omega)) hls))),
      ?_, nofun, ?_⟩
    · unfold Closes at hclosed ⊢
      simp only [List.length_cons]
      omega
    · rw [bytesOfLetters, hbytes, ofNat_eq_byte (b := a) (by omega), ofNat_eq_byte (b := b) (by omega),
        ofNat_eq_byte (b := c) (by omega)]
  | case2 a b =>
    have ha := a.toNat_lt
    have hb := b.toNat_lt
    refine ⟨[_, _, _], 1, _, rfl, .cons (letterValue?_letter _ (by omega))
      (.cons (letterValue?_letter _ (by omega)) (.cons (letterValue?_letter _ (by omega)) .nil)),
      .inr (show 2 ≤ 3 ∧ 3 + 1 = 4 by decide), nofun, ?_⟩
    rw [bytesOfLetters, ofNat_eq_byte (b := a) (by omega), ofNat_eq_byte (b := b) (by omega)]
  | case3 a =>
    have ha := a.toNat_lt
    refine ⟨[_, _], 2, _, rfl, .cons (letterValue?_letter _ (by omega))
      (.cons (letterValue?_letter _ (by omega)) .nil), .inr (show 2 ≤ 2 ∧ 2 + 2 = 4 by decide), nofun,
      ?_⟩
    rw [bytesOfLetters, ofNat_eq_byte (b := a) (by omega)]
  | case4 => exact ⟨[], 0, [], rfl, .nil, .inl rfl, fun _ => rfl, rfl⟩

theorem decode_encode (bs : Bytes) : decode (encode bs) = .ok bs :=
  decode_eq_ok.mpr (represents_encode bs)

/-- Both marks of the alphabet, and one byte with its padding. -/
example : encode [0xFB, 0xEF, 0xFF] = ("++//" : Text) ∧ encode [0x66] = ("Zg==" : Text) := by decide

end Base64

end LedgerWire
