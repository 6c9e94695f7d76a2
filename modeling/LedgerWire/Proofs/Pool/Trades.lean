import LedgerWire.Proofs.Pool.Rounding
import Mathlib.Tactic.Ring

/-!
# What a share is worth does not fall

A `Trade` changes a pool by what the pool quotes for it. The value of a share is measured by
`reserve0 * reserve1 / totalShares ^ 2`, and `Pool.Keeps` compares it without the quotient. Every trade
keeps it, and so does every run of trades as long as there are shares.
-/

namespace LedgerWire

/-- What is done to a pool: of one token an amount is sold, both are deposited, or shares are burned.
In a swap the first token is sold if its amount is positive, and otherwise the second. -/
inductive Trade
  | swap (amount0 amount1 : Int)
  | deposit (amount0 amount1 : Int)
  | withdraw (shares : Int)
  deriving DecidableEq, Repr

namespace Pool

/-- The pool after a trade at the quote of the pool. -/
def trade (p : Pool) : Trade → Except PoolFault Pool
  | .swap amount0 amount1 =>
    let given := p.swapOutput amount0 amount1
    if 0 < amount0 then
      .ok { p with reserve0 := p.reserve0 + amount0, reserve1 := p.reserve1 - given }
    else .ok { p with reserve0 := p.reserve0 - given, reserve1 := p.reserve1 + amount1 }
  | .deposit amount0 amount1 => do
    let shares ← p.liquidityShares amount0 amount1
    pure { p with reserve0 := p.reserve0 + amount0, reserve1 := p.reserve1 + amount1,
                  totalShares := p.totalShares + shares }
  | .withdraw shares =>
    let paid := p.withdrawal shares
    .ok { p with reserve0 := p.reserve0 - paid.1, reserve1 := p.reserve1 - paid.2,
                 totalShares := p.totalShares - shares }

/-- What is sold is positive, what is deposited is not negative, and what is burned is there. -/
def Allows (p : Pool) : Trade → Prop
  | .swap amount0 amount1 => 0 < amount0 ∨ 0 < amount1
  | .deposit amount0 amount1 => 0 ≤ amount0 ∧ 0 ≤ amount1
  | .withdraw shares => 0 ≤ shares ∧ shares ≤ p.totalShares

instance (p : Pool) : (t : Trade) → Decidable (p.Allows t)
  | .swap amount0 amount1 => inferInstanceAs (Decidable (0 < amount0 ∨ 0 < amount1))
  | .deposit amount0 amount1 => inferInstanceAs (Decidable (0 ≤ amount0 ∧ 0 ≤ amount1))
  | .withdraw shares => inferInstanceAs (Decidable (0 ≤ shares ∧ shares ≤ p.totalShares))

/-- Shares are held, and no reserve is negative. -/
structure Held (p : Pool) : Prop where
  reserve0_nonneg : 0 ≤ p.reserve0
  reserve1_nonneg : 0 ≤ p.reserve1
  shares_pos : 0 < p.totalShares

/-- A share of the second pool is worth no less than one of the first. -/
def Keeps (p q : Pool) : Prop :=
  p.reserve0 * p.reserve1 * q.totalShares ^ 2 ≤ q.reserve0 * q.reserve1 * p.totalShares ^ 2

/-- A share of the second pool stands for no less of either reserve than one of the first. -/
structure Sustains (p q : Pool) : Prop where
  side0 : p.reserve0 * q.totalShares ≤ q.reserve0 * p.totalShares
  side1 : p.reserve1 * q.totalShares ≤ q.reserve1 * p.totalShares

/-- The pool after a deposit for which it gave shares. -/
def deposited (p : Pool) (amount0 amount1 shares : Int) : Pool :=
  { p with reserve0 := p.reserve0 + amount0, reserve1 := p.reserve1 + amount1,
           totalShares := p.totalShares + shares }

/-- The pool after shares were burned. -/
def burned (p : Pool) (shares : Int) : Pool :=
  { p with reserve0 := p.reserve0 - (p.withdrawal shares).1,
           reserve1 := p.reserve1 - (p.withdrawal shares).2, totalShares := p.totalShares - shares }

/-- The second pool comes from the first by trades, and shares are left after each of them. -/
inductive Reaches (p : Pool) : Pool → Prop
  | refl : Reaches p p
  | step {q r : Pool} {t : Trade} (h : Reaches p q) (allowed : q.Allows t) (traded : q.trade t = .ok r)
    (left : 0 < r.totalShares) : Reaches p r

variable {p q r : Pool}

/-! ### One trade -/

theorem Keeps.refl (p : Pool) : p.Keeps p := le_refl _

/-- The shares of the pool in the middle are positive, and cancel. -/
theorem Keeps.trans (hq : 0 < q.totalShares) (h₁ : p.Keeps q) (h₂ : q.Keeps r) : p.Keeps r := by
  refine Int.le_of_mul_le_mul_right ?_ (pow_pos hq 2)
  calc p.reserve0 * p.reserve1 * r.totalShares ^ 2 * q.totalShares ^ 2
      = p.reserve0 * p.reserve1 * q.totalShares ^ 2 * r.totalShares ^ 2 := by ring
    _ ≤ q.reserve0 * q.reserve1 * p.totalShares ^ 2 * r.totalShares ^ 2 :=
      Int.mul_le_mul_of_nonneg_right h₁ (sq_nonneg _)
    _ = q.reserve0 * q.reserve1 * r.totalShares ^ 2 * p.totalShares ^ 2 := by ring
    _ ≤ r.reserve0 * r.reserve1 * q.totalShares ^ 2 * p.totalShares ^ 2 :=
      Int.mul_le_mul_of_nonneg_right h₂ (sq_nonneg _)
    _ = r.reserve0 * r.reserve1 * p.totalShares ^ 2 * q.totalShares ^ 2 := by ring

theorem Sustains.keeps (hp : p.Held) (h0 : 0 ≤ q.reserve0) (hq : 0 ≤ q.totalShares)
    (h : p.Sustains q) : p.Keeps q := by
  have hprod := mul_le_mul h.side0 h.side1 (Int.mul_nonneg hp.reserve1_nonneg hq)
    (Int.mul_nonneg h0 hp.shares_pos.le)
  calc p.reserve0 * p.reserve1 * q.totalShares ^ 2
      = p.reserve0 * q.totalShares * (p.reserve1 * q.totalShares) := by ring
    _ ≤ q.reserve0 * p.totalShares * (q.reserve1 * p.totalShares) := hprod
    _ = q.reserve0 * q.reserve1 * p.totalShares ^ 2 := by ring

/-- The product of the reserves is no less, for as many shares. -/
theorem keeps_of_product (hshares : q.totalShares = p.totalShares)
    (hprod : p.reserve0 * p.reserve1 ≤ q.reserve0 * q.reserve1) : p.Keeps q := by
  unfold Keeps
  rw [hshares]
  exact Int.mul_le_mul_of_nonneg_right hprod (sq_nonneg _)

theorem trade_swap {amount0 amount1 : Int} (hp : p.Held) (ha : p.Allows (.swap amount0 amount1)) :
    ∃ r, p.trade (.swap amount0 amount1) = .ok r ∧ 0 ≤ r.reserve0 ∧ 0 ≤ r.reserve1 ∧ p.Keeps r := by
  obtain ⟨h0, h1, -⟩ := hp
  by_cases hpos : 0 < amount0
  · have hout : p.swapOutput amount0 amount1 = output p.reserve0 p.reserve1 amount0 := if_pos hpos
    have hle := output_le h0 h1 hpos
    refine ⟨_, if_pos hpos, Int.add_nonneg h0 hpos.le, ?_, keeps_of_product rfl ?_⟩
    · show 0 ≤ p.reserve1 - p.swapOutput amount0 amount1
      omega
    · show _ ≤ (p.reserve0 + amount0) * (p.reserve1 - p.swapOutput amount0 amount1)
      rw [hout]
      exact product_le p.reserve1 h0 hpos
  · have hpos' : 0 < amount1 := ha.resolve_left hpos
    have hout : p.swapOutput amount0 amount1 = output p.reserve1 p.reserve0 amount1 := if_neg hpos
    have hle := output_le h1 h0 hpos'
    refine ⟨_, if_neg hpos, ?_, Int.add_nonneg h1 hpos'.le, keeps_of_product rfl ?_⟩
    · show 0 ≤ p.reserve0 - p.swapOutput amount0 amount1
      omega
    · show _ ≤ (p.reserve0 - p.swapOutput amount0 amount1) * (p.reserve1 + amount1)
      rw [hout, mul_comm p.reserve0, mul_comm (p.reserve0 - _)]
      exact product_le p.reserve0 h1 hpos'

/-- What is deposited for shares is worth as much of either reserve as the shares before it. -/
theorem sustains_deposited {amount0 amount1 shares : Int}
    (hle0 : shares * p.reserve0 ≤ amount0 * p.totalShares)
    (hle1 : shares * p.reserve1 ≤ amount1 * p.totalShares) :
    p.Sustains (p.deposited amount0 amount1 shares) where
  side0 := by
    show p.reserve0 * (p.totalShares + shares) ≤ (p.reserve0 + amount0) * p.totalShares
    linarith [mul_comm shares p.reserve0]
  side1 := by
    show p.reserve1 * (p.totalShares + shares) ≤ (p.reserve1 + amount1) * p.totalShares
    linarith [mul_comm shares p.reserve1]

theorem trade_deposit {amount0 amount1 shares : Int}
    (h : p.liquidityShares amount0 amount1 = .ok shares) :
    p.trade (.deposit amount0 amount1) = .ok (p.deposited amount0 amount1 shares) := by
  show (p.liquidityShares amount0 amount1 >>= _) = _
  rw [h]
  rfl

/-- Burned shares leave to the others what these stood for. -/
theorem sustains_burned (shares : Int) (held : 0 < p.totalShares) : p.Sustains (p.burned shares) := by
  obtain ⟨hpaid0, hpaid1⟩ := withdrawal_mul_le shares held
  constructor
  · show p.reserve0 * (p.totalShares - shares) ≤
      (p.reserve0 - (p.withdrawal shares).1) * p.totalShares
    linarith [mul_comm shares p.reserve0]
  · show p.reserve1 * (p.totalShares - shares) ≤
      (p.reserve1 - (p.withdrawal shares).2) * p.totalShares
    linarith [mul_comm shares p.reserve1]

theorem burned_nonneg {shares : Int} (hp : p.Held) (hs : shares ≤ p.totalShares) :
    0 ≤ (p.burned shares).reserve0 ∧ 0 ≤ (p.burned shares).reserve1 := by
  obtain ⟨hle0, hle1⟩ := withdrawal_le hp.reserve0_nonneg hp.reserve1_nonneg hp.shares_pos hs
  exact ⟨Int.sub_nonneg_of_le hle0, Int.sub_nonneg_of_le hle1⟩

/-- A trade that is allowed goes through, and a share is worth no less after it. -/
theorem trade_keeps {t : Trade} (hp : p.Held) (ha : p.Allows t) :
    ∃ r, p.trade t = .ok r ∧ 0 ≤ r.reserve0 ∧ 0 ≤ r.reserve1 ∧ p.Keeps r := by
  cases t with
  | swap amount0 amount1 => exact trade_swap hp ha
  | deposit amount0 amount1 =>
    obtain ⟨shares, hok, hs, hle0, hle1⟩ := liquidityShares_of_pos hp.reserve0_nonneg
      hp.reserve1_nonneg hp.shares_pos ha.1 ha.2
    have hr0 : 0 ≤ p.reserve0 + amount0 := Int.add_nonneg hp.reserve0_nonneg ha.1
    exact ⟨_, trade_deposit hok, hr0, Int.add_nonneg hp.reserve1_nonneg ha.2,
      (sustains_deposited hle0 hle1).keeps hp hr0 (Int.add_nonneg hp.shares_pos.le hs)⟩
  | withdraw shares =>
    obtain ⟨hr0, hr1⟩ := burned_nonneg hp ha.2
    exact ⟨p.burned shares, rfl, hr0, hr1,
      (sustains_burned shares hp.shares_pos).keeps hp hr0 (Int.sub_nonneg_of_le ha.2)⟩

/-! ### Runs of trades -/

theorem Reaches.held_keeps (hp : p.Held) (h : p.Reaches q) : q.Held ∧ p.Keeps q := by
  induction h with
  | refl => exact ⟨hp, Keeps.refl p⟩
  | step _ allowed traded left ih =>
    obtain ⟨hq, hkeeps⟩ := ih
    obtain ⟨r, hr, h0, h1, hstep⟩ := trade_keeps hq allowed
    cases hr.symm.trans traded
    exact ⟨⟨h0, h1, left⟩, hkeeps.trans hq.shares_pos hstep⟩

/-- Wherever trades lead from a pool with shares, as long as shares are left: no reserve is negative, a
share is worth no less than at the beginning, and every trade that is allowed has a quote. -/
theorem worth_of_share_never_falls (h0 : 0 ≤ p.reserve0) (h1 : 0 ≤ p.reserve1)
    (held : 0 < p.totalShares) (h : p.Reaches q) :
    0 ≤ q.reserve0 ∧ 0 ≤ q.reserve1 ∧
      p.reserve0 * p.reserve1 * q.totalShares ^ 2 ≤ q.reserve0 * q.reserve1 * p.totalShares ^ 2 ∧
      ∀ t, q.Allows t → ∃ r, q.trade t = .ok r := by
  obtain ⟨hq, hkeeps⟩ := h.held_keeps ⟨h0, h1, held⟩
  refine ⟨hq.reserve0_nonneg, hq.reserve1_nonneg, hkeeps, fun t ha => ?_⟩
  obtain ⟨r, hr, -⟩ := trade_keeps hq ha
  exact ⟨r, hr⟩

/-- One token is sold, both are deposited, and shares are burned; each quote is rounded. -/
theorem worth_of_share_never_falls_three :
    ∃ p q : Pool, p.reserve0 = 10000 ∧ p.reserve1 = 20000 ∧ p.totalShares = 700 ∧
      q.reserve0 = 9935 ∧ q.reserve1 = 16408 ∧ q.totalShares = 631 ∧ p.Reaches q ∧
      p.reserve0 * p.reserve1 * q.totalShares ^ 2 ≤ q.reserve0 * q.reserve1 * p.totalShares ^ 2 := by
  have sold : Reaches ⟨1, [], [], 10000, 20000, 700⟩ ⟨1, [], [], 11000, 18182, 700⟩ :=
    .step (t := .swap 1000 0) .refl (by decide) rfl (by decide)
  have deposited : Reaches ⟨1, [], [], 10000, 20000, 700⟩ ⟨1, [], [], 11100, 18332, 705⟩ :=
    .step (t := .deposit 100 150) sold (by decide) rfl (by decide)
  have burned : Reaches ⟨1, [], [], 10000, 20000, 700⟩ ⟨1, [], [], 9935, 16408, 631⟩ :=
    .step (t := .withdraw 74) deposited (by decide) rfl (by decide)
  exact ⟨_, _, rfl, rfl, rfl, rfl, rfl, rfl, burned,
    (worth_of_share_never_falls (by decide) (by decide) (by decide) burned).2.2.1⟩

end Pool

end LedgerWire
