import LedgerWire.Proofs.Number.SquareRoot
import LedgerWire.Proofs.Pool.Trades
import Mathlib.Algebra.Group.Prod
import Mathlib.Algebra.Order.BigOperators.Group.List
import Mathlib.Algebra.Order.Group.Int
import Mathlib.Order.Bounds.Defs

/-!
# Deposits and withdrawals take nothing from other shares

A pool sustains another one if a share stands for no less of either reserve there. Then shares are paid
no less there (`Sustains.withdrawal_le`), and that settles both sides of a deposit and of withdrawals:
what a share is paid does not fall, and since what is left is enough for the shares that are left, what
was paid is no more than the others leave over.
-/

namespace LedgerWire

namespace Pool

variable {p q r : Pool} {shares amount0 amount1 : Int}

/-! ### What shares are paid -/

/-- Just what shares are worth is no more than what they are paid. -/
theorem le_withdrawal_iff (held : 0 < p.totalShares) :
    (amount0, amount1) ≤ p.withdrawal shares ↔
      amount0 * p.totalShares ≤ shares * p.reserve0 ∧
        amount1 * p.totalShares ≤ shares * p.reserve1 := by
  unfold withdrawal
  rw [if_neg held.ne', Prod.mk_le_mk, Int.fdiv_eq_ediv_of_nonneg _ held.le,
    Int.fdiv_eq_ediv_of_nonneg _ held.le, Int.le_ediv_iff_mul_le held, Int.le_ediv_iff_mul_le held]

@[simp] theorem withdrawal_zero (p : Pool) : p.withdrawal 0 = (0, 0) := by
  unfold withdrawal
  rw [Int.zero_mul, Int.zero_mul, Int.zero_fdiv]
  exact ite_self _

/-- All shares are paid all there is. -/
theorem withdrawal_totalShares (held : 0 < p.totalShares) :
    p.withdrawal p.totalShares = (p.reserve0, p.reserve1) := by
  unfold withdrawal
  rw [if_neg held.ne', Int.mul_fdiv_cancel_left _ held.ne', Int.mul_fdiv_cancel_left _ held.ne']

theorem Sustains.refl (p : Pool) : p.Sustains p := ⟨le_refl _, le_refl _⟩

/-- The shares of the pool in the middle are positive, and cancel. -/
theorem Sustains.trans (hp : 0 ≤ p.totalShares) (hq : 0 < q.totalShares) (hr : 0 ≤ r.totalShares)
    (h₁ : p.Sustains q) (h₂ : q.Sustains r) : p.Sustains r := by
  have hside {a b c : Int} (hab : a * q.totalShares ≤ b * p.totalShares)
      (hbc : b * r.totalShares ≤ c * q.totalShares) : a * r.totalShares ≤ c * p.totalShares := by
    refine Int.le_of_mul_le_mul_right ?_ hq
    calc a * r.totalShares * q.totalShares
        = a * q.totalShares * r.totalShares := by ring
      _ ≤ b * p.totalShares * r.totalShares := Int.mul_le_mul_of_nonneg_right hab hr
      _ = b * r.totalShares * p.totalShares := by ring
      _ ≤ c * q.totalShares * p.totalShares := Int.mul_le_mul_of_nonneg_right hbc hp
      _ = c * p.totalShares * q.totalShares := by ring
  exact ⟨hside h₁.side0 h₂.side0, hside h₁.side1 h₂.side1⟩

/-- Shares are paid no less in a pool that sustains them. -/
theorem Sustains.withdrawal_le (h : p.Sustains q) (hp : 0 < p.totalShares) (hq : 0 < q.totalShares)
    (hs : 0 ≤ shares) : p.withdrawal shares ≤ q.withdrawal shares := by
  have hside {paid a b : Int} (hpaid : paid * p.totalShares ≤ shares * a)
      (hab : a * q.totalShares ≤ b * p.totalShares) : paid * q.totalShares ≤ shares * b := by
    refine Int.le_of_mul_le_mul_right ?_ hp
    calc paid * q.totalShares * p.totalShares
        = paid * p.totalShares * q.totalShares := by ring
      _ ≤ shares * a * q.totalShares := Int.mul_le_mul_of_nonneg_right hpaid hq.le
      _ = shares * (a * q.totalShares) := by ring
      _ ≤ shares * (b * p.totalShares) := Int.mul_le_mul_of_nonneg_left hab hs
      _ = shares * b * p.totalShares := by ring
  obtain ⟨hpaid0, hpaid1⟩ := withdrawal_mul_le shares hp
  exact (le_withdrawal_iff hq).mpr ⟨hside hpaid0 h.side0, hside hpaid1 h.side1⟩

/-! ### Deposits -/

/-- The new shares are worth no more than what was deposited for them. -/
theorem withdrawal_deposited_le (held : 0 < p.totalShares) (hs : 0 ≤ shares)
    (hle0 : shares * p.reserve0 ≤ amount0 * p.totalShares)
    (hle1 : shares * p.reserve1 ≤ amount1 * p.totalShares) :
    (p.deposited amount0 amount1 shares).withdrawal shares ≤ (amount0, amount1) := by
  have hq : 0 < (p.deposited amount0 amount1 shares).totalShares := Int.add_pos_of_pos_of_nonneg held hs
  have hside {amount reserve : Int} (hle : shares * reserve ≤ amount * p.totalShares) :
      shares * (reserve + amount) ≤ amount * (p.totalShares + shares) := by
    linarith [mul_comm shares amount]
  exact withdrawal_le_of_mul_le hq (hside hle0) (hside hle1)

/-- The first shares are the root of the product of what is deposited for them. -/
theorem liquidityShares_first (hshares : p.totalShares = 0) (ha0 : 0 ≤ amount0) (ha1 : 0 ≤ amount1) :
    ∃ s : Int, p.liquidityShares amount0 amount1 = .ok s ∧
      IsGreatest {n : Int | n * n ≤ amount0 * amount1} s := by
  obtain ⟨product, hproduct⟩ := Int.eq_ofNat_of_zero_le (Int.mul_nonneg ha0 ha1)
  refine ⟨squareRoot product, ?_, ?_, ?_⟩
  · unfold liquidityShares
    rw [if_pos hshares, hproduct]
  · show (squareRoot product : Int) * squareRoot product ≤ amount0 * amount1
    rw [hproduct]
    exact_mod_cast squareRoot_le product
  · intro n hn
    have hlt : n * n < (squareRoot product + 1 : Int) * (squareRoot product + 1) := by
      refine lt_of_le_of_lt (hn.trans_eq hproduct) ?_
      exact_mod_cast lt_squareRoot product
    by_contra hmore
    exact absurd (mul_self_le_mul_self (by omega) (Int.add_one_le_iff.mpr (Int.not_le.mp hmore)))
      (Int.not_le.mpr hlt)

/-- A deposit into a pool with shares is paid out as no more than it was, and takes nothing from what
other shares are paid. The first deposit gets the root of the product of its amounts, and if these are
any shares, it is paid out just as it was. -/
theorem deposit_is_fair (h0 : 0 ≤ p.reserve0) (h1 : 0 ≤ p.reserve1) (ha0 : 0 ≤ amount0)
    (ha1 : 0 ≤ amount1) :
    (0 < p.totalShares → ∃ s, p.liquidityShares amount0 amount1 = .ok s ∧
      p.trade (.deposit amount0 amount1) = .ok (p.deposited amount0 amount1 s) ∧
      (p.deposited amount0 amount1 s).withdrawal s ≤ (amount0, amount1) ∧
      ∀ k, 0 ≤ k → k ≤ p.totalShares →
        p.withdrawal k ≤ (p.deposited amount0 amount1 s).withdrawal k) ∧
    (p.totalShares = 0 → p.reserve0 = 0 → p.reserve1 = 0 → ∃ s,
      p.liquidityShares amount0 amount1 = .ok s ∧
      p.trade (.deposit amount0 amount1) = .ok (p.deposited amount0 amount1 s) ∧
      IsGreatest {n : Int | n * n ≤ amount0 * amount1} s ∧
      (0 < s → (p.deposited amount0 amount1 s).withdrawal s = (amount0, amount1))) := by
  constructor
  · intro held
    obtain ⟨s, hok, hs, hle0, hle1⟩ := liquidityShares_of_pos h0 h1 held ha0 ha1
    have hsustains := sustains_deposited hle0 hle1
    refine ⟨s, hok, trade_deposit hok, withdrawal_deposited_le held hs hle0 hle1, fun k hk _ => ?_⟩
    exact hsustains.withdrawal_le held (Int.add_pos_of_pos_of_nonneg held hs) hk
  · intro hshares hempty0 hempty1
    obtain ⟨s, hok, hroot⟩ := liquidityShares_first hshares ha0 ha1
    refine ⟨s, hok, trade_deposit hok, hroot, fun hs => ?_⟩
    have htotal : (p.deposited amount0 amount1 s).totalShares = s := by
      show p.totalShares + s = s
      rw [hshares, Int.zero_add]
    have hall := withdrawal_totalShares (p := p.deposited amount0 amount1 s) (by rwa [htotal])
    rw [htotal] at hall
    rw [hall]
    show (p.reserve0 + amount0, p.reserve1 + amount1) = _
    rw [hempty0, hempty1, Int.zero_add, Int.zero_add]

/-- A deposit with more of the first token than the shares for it are worth, and a first one. -/
theorem deposit_is_fair_uneven :
    let p : Pool := ⟨1, [], [], 100, 20000, 1414⟩
    let empty : Pool := ⟨1, [], [], 0, 0, 0⟩
    p.liquidityShares 10 1000 = .ok 70 ∧ (p.deposited 10 1000 70).withdrawal 70 ≤ (10, 1000) ∧
      p.withdrawal 1413 ≤ (p.deposited 10 1000 70).withdrawal 1413 ∧
      empty.liquidityShares 100 20000 = .ok 1414 ∧
      IsGreatest {n : Int | n * n ≤ 100 * 20000} 1414 ∧
      (empty.deposited 100 20000 1414).withdrawal 1414 = (100, 20000) := by
  intro p empty
  obtain ⟨s, hs, -, hpaid, hothers⟩ :=
    (deposit_is_fair (p := p) (by decide) (by decide) (show (0 : Int) ≤ 10 by decide)
      (show (0 : Int) ≤ 1000 by decide)).1 (by decide)
  obtain ⟨first, hfirst, -, hroot, hback⟩ :=
    (deposit_is_fair (p := empty) (by decide) (by decide) (show (0 : Int) ≤ 100 by decide)
      (show (0 : Int) ≤ 20000 by decide)).2 rfl rfl rfl
  have hseventy : p.liquidityShares 10 1000 = .ok 70 := rfl
  have hfirst' : empty.liquidityShares 100 20000 = .ok 1414 := rfl
  cases hseventy.symm.trans hs
  cases hfirst'.symm.trans hfirst
  exact ⟨hseventy, hpaid, hothers 1413 (by decide) (by decide), hfirst', hroot, hback (by decide)⟩

/-! ### Withdrawals -/

/-- Burns shares one after the other, each in the pool that the one before left. The result is the sum
of what is paid, with the pool that is left. -/
def burnEach (p : Pool) : (burns : List Int) → Except PoolFault ((Int × Int) × Pool)
  | [] => .ok ((0, 0), p)
  | shares :: burns => do
    let q ← p.trade (.withdraw shares)
    let (later, r) ← burnEach q burns
    pure (p.withdrawal shares + later, r)

/-- Nothing is negative, and without shares there is nothing in reserve. -/
structure Backed (p : Pool) : Prop where
  reserve0_nonneg : 0 ≤ p.reserve0
  reserve1_nonneg : 0 ≤ p.reserve1
  shares_nonneg : 0 ≤ p.totalShares
  empty : p.totalShares = 0 → p.reserve0 = 0 ∧ p.reserve1 = 0

/-- The second pool is what is left of the first when shares are burned and amounts are paid, and it
sustains the first. -/
structure Leaves (p : Pool) (shares : Int) (paid : Int × Int) (q : Pool) : Prop where
  shares_nonneg : 0 ≤ shares
  backed : q.Backed
  sustains : p.Sustains q
  reserve0_eq : q.reserve0 = p.reserve0 - paid.1
  reserve1_eq : q.reserve1 = p.reserve1 - paid.2
  totalShares_eq : q.totalShares = p.totalShares - shares

variable {more : Int} {paid later : Int × Int}

theorem Held.backed (hp : p.Held) : p.Backed :=
  ⟨hp.reserve0_nonneg, hp.reserve1_nonneg, hp.shares_pos.le, fun h => absurd h hp.shares_pos.ne'⟩

theorem Backed.held (hp : p.Backed) (h : 0 < p.totalShares) : p.Held :=
  ⟨hp.reserve0_nonneg, hp.reserve1_nonneg, h⟩

theorem Leaves.refl (hp : p.Backed) : p.Leaves 0 (0, 0) p :=
  ⟨le_rfl, hp, .refl p, (Int.sub_zero _).symm, (Int.sub_zero _).symm, (Int.sub_zero _).symm⟩

/-- Burned shares are there, and the last of them are paid what is left. -/
theorem leaves_burned (hp : p.Held) (hs : 0 ≤ shares) (hle : shares ≤ p.totalShares) :
    p.Leaves shares (p.withdrawal shares) (p.burned shares) := by
  obtain ⟨hr0, hr1⟩ := burned_nonneg hp hle
  refine ⟨hs, ⟨hr0, hr1, Int.sub_nonneg_of_le hle, fun hlast => ?_⟩,
    sustains_burned shares hp.shares_pos, rfl, rfl, rfl⟩
  obtain rfl : p.totalShares = shares := Int.eq_of_sub_eq_zero hlast
  show p.reserve0 - (p.withdrawal p.totalShares).1 = 0 ∧ p.reserve1 - (p.withdrawal p.totalShares).2 = 0
  rw [withdrawal_totalShares hp.shares_pos]
  exact ⟨Int.sub_self _, Int.sub_self _⟩

theorem Leaves.trans (hp : p.Backed) (h₁ : p.Leaves shares paid q) (h₂ : q.Leaves more later r) :
    p.Leaves (shares + more) (paid + later) r := by
  have hq := h₁.totalShares_eq
  have hr := h₂.totalShares_eq
  have hmore := h₂.shares_nonneg
  refine ⟨Int.add_nonneg h₁.shares_nonneg hmore, h₂.backed, ?_, ?_, ?_, by omega⟩
  · rcases h₂.backed.shares_nonneg.eq_or_lt with hnone | hleft
    · -- nothing is asked of a pool without shares
      constructor
      · rw [← hnone, Int.mul_zero]
        exact Int.mul_nonneg h₂.backed.reserve0_nonneg hp.shares_nonneg
      · rw [← hnone, Int.mul_zero]
        exact Int.mul_nonneg h₂.backed.reserve1_nonneg hp.shares_nonneg
    · exact h₁.sustains.trans hp.shares_nonneg (by omega) hleft.le h₂.sustains
  · rw [h₂.reserve0_eq, h₁.reserve0_eq, Prod.fst_add, Int.sub_sub]
  · rw [h₂.reserve1_eq, h₁.reserve1_eq, Prod.snd_add, Int.sub_sub]

/-- Shares that are there can be burned in any parts, and what is left sustains the pool. -/
theorem burnEach_leaves {burns : List Int} (hp : p.Backed) (hpos : ∀ s ∈ burns, 0 < s)
    (hsum : burns.sum ≤ p.totalShares) :
    ∃ paid q, p.burnEach burns = .ok (paid, q) ∧ p.Leaves burns.sum paid q := by
  induction burns generalizing p with
  | nil => exact ⟨_, p, rfl, .refl hp⟩
  | cons shares burns ih =>
    obtain ⟨hs, hlater⟩ := List.forall_mem_cons.mp hpos
    have hrest : 0 ≤ burns.sum := List.sum_nonneg fun s hs => (hlater s hs).le
    rw [List.sum_cons] at hsum ⊢
    have hstep := leaves_burned (hp.held (by omega)) hs.le (show shares ≤ p.totalShares by omega)
    obtain ⟨later, r, hr, hleaves⟩ := ih hstep.backed hlater (by
      rw [hstep.totalShares_eq]
      omega)
    refine ⟨p.withdrawal shares + later, r, ?_, hstep.trans hp hleaves⟩
    show ((p.burned shares).burnEach burns >>= _) = _
    rw [hr]
    rfl

/-- What was paid is no more than the shares are paid at once. -/
theorem Leaves.paid_le (held : 0 < p.totalShares) (h : p.Leaves shares paid q) :
    paid ≤ p.withdrawal shares := by
  have hside0 := h.sustains.side0
  have hside1 := h.sustains.side1
  rw [h.totalShares_eq] at hside0 hside1
  rw [h.reserve0_eq] at hside0
  rw [h.reserve1_eq] at hside1
  refine (le_withdrawal_iff held).mpr ⟨?_, ?_⟩
  · linarith [mul_comm shares p.reserve0]
  · linarith [mul_comm shares p.reserve1]

/-- The shares that are left are paid no less than before. -/
theorem Leaves.withdrawal_le {k : Int} (held : 0 < p.totalShares) (h : p.Leaves shares paid q)
    (hk : 0 ≤ k) (hle : k ≤ q.totalShares) : p.withdrawal k ≤ q.withdrawal k := by
  rcases h.backed.shares_nonneg.eq_or_lt with hnone | hleft
  · obtain rfl : k = 0 := by omega
    simp
  · exact h.sustains.withdrawal_le held hleft hk

/-- Shares that are burned one after the other are paid no more than their sum at once, and the shares
that are left are paid no less than before. If all are burned, they are paid all there is. -/
theorem burning_conserves (h0 : 0 ≤ p.reserve0) (h1 : 0 ≤ p.reserve1) (held : 0 < p.totalShares)
    {burns : List Int} (hpos : ∀ s ∈ burns, 0 < s) (hsum : burns.sum ≤ p.totalShares) :
    ∃ paid q, p.burnEach burns = .ok (paid, q) ∧ q.totalShares = p.totalShares - burns.sum ∧
      (q.reserve0, q.reserve1) + paid = (p.reserve0, p.reserve1) ∧ paid ≤ p.withdrawal burns.sum ∧
      (∀ k, 0 ≤ k → k ≤ q.totalShares → p.withdrawal k ≤ q.withdrawal k) ∧
      (burns.sum = p.totalShares → paid = (p.reserve0, p.reserve1)) := by
  obtain ⟨paid, q, hok, h⟩ := burnEach_leaves (Held.backed ⟨h0, h1, held⟩) hpos hsum
  have hsplit : (q.reserve0, q.reserve1) + paid = (p.reserve0, p.reserve1) := by
    rw [h.reserve0_eq, h.reserve1_eq]
    exact Prod.ext (Int.sub_add_cancel _ _) (Int.sub_add_cancel _ _)
  refine ⟨paid, q, hok, h.totalShares_eq, hsplit, h.paid_le held, fun k => h.withdrawal_le held,
    fun hall => ?_⟩
  obtain ⟨hempty0, hempty1⟩ := h.backed.empty (by rw [h.totalShares_eq, hall, Int.sub_self])
  rw [hempty0, hempty1] at hsplit
  exact (zero_add paid).symm.trans hsplit

/-- Three burns that leave shares are paid less of either token than their sum is at once; with a fourth
one that takes the others they are paid all there is. -/
theorem burning_conserves_four :
    let p : Pool := ⟨1, [], [], 100, 20000, 1414⟩
    (∃ q, p.burnEach [10, 10, 10] = .ok ((0, 423), q) ∧ p.withdrawal 30 = (2, 424) ∧
      (0, 423) ≤ p.withdrawal 30 ∧ p.withdrawal 1384 ≤ q.withdrawal 1384) ∧
    ∃ q, p.burnEach [10, 10, 10, 1384] = .ok ((100, 20000), q) := by
  intro p
  obtain ⟨paid, q, hq, -, -, hle, hothers, -⟩ := burning_conserves (p := p) (by decide) (by decide)
    (by decide) (show ∀ s ∈ ([10, 10, 10] : List Int), 0 < s by decide) (by decide)
  obtain ⟨all, r, hr, -, -, -, -, hall⟩ := burning_conserves (p := p) (by decide) (by decide)
    (by decide) (show ∀ s ∈ ([10, 10, 10, 1384] : List Int), 0 < s by decide) (by decide)
  have hpaid : p.burnEach [10, 10, 10] = .ok ((0, 423), _) := rfl
  cases hpaid.symm.trans hq
  rw [hall rfl] at hr
  exact ⟨⟨_, hpaid, rfl, hle, hothers 1384 (by decide) (by decide)⟩, r, hr⟩

end Pool

end LedgerWire
