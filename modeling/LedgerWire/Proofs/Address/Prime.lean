import LedgerWire.Address.Curve
import Mathlib.NumberTheory.LucasPrimality
import Mathlib.Tactic.NormNum.Prime

/-!
# The modulus is prime

Lucas's test: `q` is prime if some `a` has the power `1` for the exponent `q - 1` and for no
`(q - 1) / f`, where `f` is a prime factor of `q - 1`. The powers are the ones that the curve computes
with. The factors are small or pass the test in their turn.
-/

namespace LedgerWire

namespace Curve

theorem cast_powMod (a n q : Nat) : (powMod a n q : ZMod q) = (a : ZMod q) ^ n := by
  rw [powMod_eq, ZMod.natCast_mod, Nat.cast_pow]

theorem powMod_eq_one_iff {a n q : Nat} (hq : 2 ≤ q) :
    powMod a n q = 1 ↔ (a : ZMod q) ^ n = 1 := by
  have h1 : (1 : Nat) % q = 1 := Nat.mod_eq_of_lt hq
  rw [← cast_powMod, ← Nat.cast_one (R := ZMod q), ZMod.natCast_eq_natCast_iff', h1, powMod_eq,
    Nat.mod_mod]

/-! ### Lucas's test -/

/-- What the test of a number takes: a base, and the prime factors of its predecessor, each as often
as it occurs. -/
structure Lucas where
  number : Nat
  base : Nat
  factors : List Nat

namespace Lucas

def passes (entry : Lucas) : Bool :=
  decide (2 ≤ entry.number) && entry.factors.prod == entry.number - 1 &&
    powMod entry.base (entry.number - 1) entry.number == 1 &&
    entry.factors.all fun f => powMod entry.base ((entry.number - 1) / f) entry.number != 1

/-- Every number passes, and its factors are known or stand before it. -/
def chain : (known : List Nat) → List Lucas → Bool
  | _, [] => true
  | known, entry :: entries =>
    entry.passes && entry.factors.all (known.contains ·) && chain (entry.number :: known) entries

theorem prime_of_passes {entry : Lucas} (hprime : ∀ f ∈ entry.factors, f.Prime)
    (h : entry.passes = true) : entry.number.Prime := by
  simp only [passes, Bool.and_eq_true, decide_eq_true_eq, beq_iff_eq, List.all_eq_true,
    bne_iff_ne] at h
  obtain ⟨⟨⟨hq, hprod⟩, hone⟩, hparts⟩ := h
  refine lucas_primality entry.number (entry.base : ZMod entry.number)
    ((powMod_eq_one_iff hq).mp hone) fun f hf hdvd => ?_
  rw [← hprod] at hdvd
  obtain ⟨g, hg, hfg⟩ := (Prime.dvd_prod_iff hf.prime).mp hdvd
  obtain rfl := (Nat.prime_dvd_prime_iff_eq hf (hprime g hg)).mp hfg
  exact fun hpow => hparts f hg ((powMod_eq_one_iff hq).mpr hpow)

theorem prime_of_chain {known : List Nat} {entries : List Lucas} (hknown : ∀ f ∈ known, f.Prime)
    (h : chain known entries = true) : ∀ entry ∈ entries, entry.number.Prime := by
  induction entries generalizing known with
  | nil => nofun
  | cons entry entries ih =>
    simp only [chain, Bool.and_eq_true, List.all_eq_true, List.contains_iff_mem] at h
    obtain ⟨⟨hpass, hfactors⟩, hrest⟩ := h
    have hprime := prime_of_passes (fun f hf => hknown f (hfactors f hf)) hpass
    exact List.forall_mem_cons.mpr
      ⟨hprime, ih (List.forall_mem_cons.mpr ⟨hprime, hknown⟩) hrest⟩

end Lucas

/-! ### The modulus -/

def smallPrimes : List Nat :=
  [2, 3, 5, 7, 13, 19, 31, 47, 107, 127, 223, 353, 2437, 4153, 57467, 65147, 75707, 132049, 430751,
    569003, 1923133, 8574133]

theorem prime_of_mem_smallPrimes : ∀ f ∈ smallPrimes, f.Prime := by
  simp only [smallPrimes, List.forall_mem_cons]
  norm_num

/-- The large primes that the modulus comes down to, and the modulus. -/
def lucasOfModulus : List Lucas := [
  ⟨2773320623, 5, [2, 2437, 569003]⟩,
  ⟨72106336199, 7, [2, 13, 2773320623]⟩,
  ⟨1919519569386763, 2, [2, 3, 7, 19, 47, 47, 127, 8574133]⟩,
  ⟨31757755568855353, 10, [2, 2, 2, 3, 31, 107, 223, 4153, 430751]⟩,
  ⟨75445702479781427272750846543864801, 7,
    [2, 2, 2, 2, 2, 3, 3, 5, 5, 75707, 72106336199, 1919519569386763]⟩,
  ⟨74058212732561358302231226437062788676166966415465897661863160754340907, 2,
    [2, 3, 353, 57467, 132049, 1923133, 31757755568855353, 75445702479781427272750846543864801]⟩,
  ⟨p, 2, [2, 2, 3, 65147,
    74058212732561358302231226437062788676166966415465897661863160754340907]⟩]

theorem chain_lucasOfModulus : Lucas.chain smallPrimes lucasOfModulus = true := by decide +kernel

theorem prime_p : p.Prime :=
  Lucas.prime_of_chain prime_of_mem_smallPrimes chain_lucasOfModulus
    ⟨p, 2, _⟩ (List.mem_of_getElem? (i := 6) rfl)

instance : Fact p.Prime := ⟨prime_p⟩

end Curve

end LedgerWire
