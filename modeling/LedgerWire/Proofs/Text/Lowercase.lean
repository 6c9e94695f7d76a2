import LedgerWire.Text.Lowercase
import Mathlib.Data.List.Forall2

/-!
# Lowercase forms and ASCII

What the lowercase form of a code point has to do with ASCII: within ASCII it is the small letter of a
capital one and nothing else changes, and from beyond ASCII only the Kelvin sign and the capital I with
a dot have a form with a letter of ASCII in it. A text whose lowercase form is of ASCII has its code
points written in lowercase one by one.
-/

namespace LedgerWire

namespace CodePoint

/-- It looks like a capital K, and its lowercase form is the small k. -/
def kelvin : CodePoint := ofNat 0x212A

theorem kelvin_val : kelvin.val = 0x212A := rfl

/-- The small letter of a capital letter of ASCII; everything else stays. -/
def small (c : CodePoint) : CodePoint := if 65 ≤ c.val ∧ c.val ≤ 90 then ofNat (c.val + 32) else c

theorem val_small (c : CodePoint) :
    c.small.val = if 65 ≤ c.val ∧ c.val ≤ 90 then c.val + 32 else c.val := by
  unfold small
  split_ifs with h
  · exact val_ofNat (by omega)
  · rfl

/-! ### The table of forms -/

def capitalRun : CaseRun := ⟨0x41, 0x5A, 1, 0x61⟩

def kelvinRun : CaseRun := ⟨0x212A, 0x212A, 1, 0x6B⟩

/-- The code points of the run lie beyond ASCII and so do their forms; the Kelvin sign is none of them. -/
def isForeignRun (run : CaseRun) : Bool :=
  0x80 ≤ run.first && 0x80 ≤ run.form && run.form + (run.last - run.first) < 0x110000 &&
    !kelvin.isIn run

theorem lowerRuns_cases :
    ∀ run ∈ lowerRuns, run = capitalRun ∨ run = kelvinRun ∨ isForeignRun run := by
  decide +kernel

theorem isIn_iff {c : CodePoint} {run : CaseRun} : c.isIn run ↔
    run.first ≤ c.val ∧ c.val ≤ run.last ∧ (c.val - run.first) % run.step = 0 := by
  unfold isIn
  simp [and_assoc]

/-- A code point without another form is no capital letter and not the Kelvin sign. -/
theorem not_isIn_of_none {c : CodePoint} (h : lowerRuns.find? c.isIn = none) :
    ¬ (65 ≤ c.val ∧ c.val ≤ 90) ∧ c ≠ kelvin := by
  rw [List.find?_eq_none] at h
  constructor
  · intro hcapital
    have hrun : capitalRun ∈ lowerRuns := List.mem_cons_self
    have hin : c.isIn capitalRun := isIn_iff.mpr ⟨hcapital.1, hcapital.2, Nat.mod_one _⟩
    exact h _ hrun hin
  · rintro rfl
    have hrun : kelvinRun ∈ lowerRuns := by decide +kernel
    exact h _ hrun rfl

/-- A code point with its lowercase form, by what the two have to do with ASCII. -/
inductive Lowers (c : CodePoint) : List CodePoint → Prop
  | ascii (h : c.val < 0x80) : Lowers c [c.small]
  | kelvin (h : c = kelvin) : Lowers c [ofNat 0x6B]
  /-- The dot is left behind. -/
  | dotted (h : c.val = 0x130) : Lowers c [ofNat 0x69, ofNat 0x307]
  | foreign {d : CodePoint} (hc : 0x80 ≤ c.val) (hd : 0x80 ≤ d.val) (hk : c ≠ CodePoint.kelvin) :
    Lowers c [d]

theorem lowers (c : CodePoint) : Lowers c c.lowercase := by
  unfold lowercase
  by_cases hdot : c.val = 0x130
  · rw [if_pos hdot]
    exact .dotted hdot
  · rw [if_neg hdot]
    cases hrun : lowerRuns.find? c.isIn with
    | none =>
      obtain ⟨hcapital, hkelvin⟩ := not_isIn_of_none hrun
      by_cases hascii : c.val < 0x80
      · have hsmall : c.small = c := if_neg hcapital
        have := Lowers.ascii hascii
        rwa [hsmall] at this
      · exact .foreign (Nat.not_lt.mp hascii) (Nat.not_lt.mp hascii) hkelvin
    | some run =>
      obtain ⟨hfirst, hlast, -⟩ := isIn_iff.mp (List.find?_some hrun)
      rcases lowerRuns_cases run (List.mem_of_find?_eq_some hrun) with rfl | rfl | hforeign
      · simp only [capitalRun] at hfirst hlast ⊢
        have hsmall : c.small = ofNat (0x61 + (c.val - 0x41)) := by
          rw [small, if_pos ⟨hfirst, hlast⟩]
          congr 1
          omega
        rw [← hsmall]
        exact .ascii (by omega)
      · simp only [kelvinRun] at hfirst hlast ⊢
        have hc : c = kelvin := Fin.ext (by rw [kelvin_val]; omega)
        subst hc
        exact .kelvin rfl
      · simp only [isForeignRun, Bool.and_eq_true, decide_eq_true_eq, Bool.not_eq_true'] at hforeign
        obtain ⟨⟨⟨hbeyond, hform⟩, hfits⟩, hother⟩ := hforeign
        have hval := val_ofNat (n := run.form + (c.val - run.first)) (by omega)
        refine .foreign (by omega) (by rw [hval]; omega) ?_
        rintro rfl
        rw [List.find?_some hrun] at hother
        cases hother

theorem lowercase_of_ascii {c : CodePoint} (h : c.val < 0x80) : c.lowercase = [c.small] := by
  obtain ⟨form, hform⟩ : ∃ form, c.lowercase = form := ⟨_, rfl⟩
  have hlowers := lowers c
  rw [hform] at hlowers ⊢
  cases hlowers with
  | ascii hc => rfl
  | kelvin hc =>
    subst hc
    exact absurd h (by decide)
  | dotted hc => omega
  | foreign hc hd hk => omega

end CodePoint

namespace Text

/-- A test that takes both small sigmas or none may look at each code point by itself. -/
theorem all_lowercaseAfter {p : CodePoint → Bool}
    (hp : p CodePoint.finalSigma = CodePoint.capitalSigma.lowercase.all p) (before t : Text) :
    (lowercaseAfter before t).all p = t.all fun c => c.lowercase.all p := by
  induction t generalizing before with
  | nil => rfl
  | cons c after ih =>
    rw [lowercaseAfter, List.all_append, ih, List.all_cons]
    congr 1
    split
    · next h =>
      obtain ⟨⟨rfl, -⟩, -⟩ : (c = CodePoint.capitalSigma ∧ _) ∧ _ := by
        simpa only [Bool.and_eq_true, decide_eq_true_eq] using h
      rw [List.all_cons, List.all_nil, Bool.and_true, hp]
    · rfl

/-- Within ASCII there is no sigma, and each code point is written in lowercase by itself. -/
theorem lowercaseAfter_of_ascii {before t : Text} (h : ∀ c ∈ t, c.val < 0x80) :
    lowercaseAfter before t = t.map CodePoint.small := by
  induction t generalizing before with
  | nil => rfl
  | cons c after ih =>
    obtain ⟨hc, hafter⟩ := List.forall_mem_cons.mp h
    have hsigma : c ≠ CodePoint.capitalSigma := by
      rintro rfl
      exact absurd hc (by decide)
    rw [lowercaseAfter, decide_eq_false hsigma, CodePoint.lowercase_of_ascii hc, ih hafter]
    rfl

/-- Where the lowercase form is of ASCII, each code point has one for itself. -/
theorem forall₂_of_lowercaseAfter {before t u : Text} (h : lowercaseAfter before t = u)
    (hu : ∀ d ∈ u, d.val < 0x80) : List.Forall₂ (fun c d => c.lowercase = [d]) t u := by
  induction t generalizing before u with
  | nil =>
    subst h
    exact .nil
  | cons c after ih =>
    rw [lowercaseAfter] at h
    split_ifs at h with hsigma
    · subst h
      exact absurd (hu _ List.mem_cons_self) (by decide)
    · obtain ⟨form, hform⟩ : ∃ form, c.lowercase = form := ⟨_, rfl⟩
      have hlowers := CodePoint.lowers c
      rw [hform] at h hlowers
      subst h
      have hrest := ih rfl fun d hd => hu d (List.mem_append_right _ hd)
      cases hlowers with
      | ascii hc => exact .cons hform hrest
      | kelvin hc => exact .cons hform hrest
      | dotted hc => exact absurd (hu (CodePoint.ofNat 0x307) (by simp)) (by decide)
      | foreign hc hd hk => exact .cons hform hrest

end Text

end LedgerWire
