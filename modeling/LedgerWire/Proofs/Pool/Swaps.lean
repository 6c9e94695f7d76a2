import LedgerWire.Pool.Quote
import LedgerWire.Proofs.Pool.Trades
import Mathlib.Algebra.Order.BigOperators.Group.List
import Mathlib.Algebra.Order.Group.Int
import Mathlib.Order.Bounds.Defs

/-!
# The best quote for a swap

A swap may take out of a pool what leaves the product of the reserves no less than it was.
`Pool.le_output_iff` says that the quote is the most of this, and all else follows from it: a trade that
is split pays no more than one swap of the sum and loses at most one unit for each swap after the first,
and what a swap gave buys back no more than was sold.
-/

namespace LedgerWire

/-- One of the two tokens of a pool. -/
inductive Side
  | first
  | second
  deriving DecidableEq, Repr

namespace Side

def other : Side → Side
  | first => second
  | second => first

@[simp] theorem other_other (side : Side) : side.other.other = side := by
  cases side <;> rfl

/-- The swap that sells an amount of the token. -/
def sale : Side → (amount : Int) → Trade
  | first, amount => .swap amount 0
  | second, amount => .swap 0 amount

end Side

/-! ### Amounts that are integers -/

namespace Value

variable {v : Value} {n : Int}

/-- A value that counts as an integer is compared as that integer. -/
theorem ask_of_toInt? (h : v.toInt? = some n) (question : Comparison) (m : Int) :
    v.ask question (.int m) = .ok (question.holds (compare n m)) := by
  cases v with
  | bool b =>
    cases h
    rfl
  | int k =>
    cases h
    rfl
  | _ => cases h

theorem toQuantity?_of_toInt? (h : v.toInt? = some n) : v.toQuantity? = some (.int n) := by
  cases v with
  | float x => cases h
  | _ => exact congrArg (·.map Quantity.int) h

end Value

namespace Pool

variable {p : Pool} {reserveIn reserveOut amount more : Int}

/-! ### One swap -/

/-- Just what leaves the product of the reserves no less than it was is no more than the quote. -/
theorem le_output_iff {o : Int} (hin : 0 ≤ reserveIn) (ha : 0 < amount) :
    o ≤ output reserveIn reserveOut amount ↔
      reserveIn * reserveOut ≤ (reserveIn + amount) * (reserveOut - o) := by
  have hsum : 0 < reserveIn + amount := by omega
  rw [output_of_pos reserveOut hin ha, Int.fdiv_eq_ediv_of_nonneg _ hsum.le,
    Int.le_ediv_iff_mul_le hsum]
  constructor
  · intro h
    linarith
  · intro h
    linarith

theorem output_nonneg (hin : 0 ≤ reserveIn) (hout : 0 ≤ reserveOut) (ha : 0 < amount) :
    0 ≤ output reserveIn reserveOut amount := by
  rw [le_output_iff hin ha, Int.sub_zero, Int.add_mul]
  have := Int.mul_nonneg ha.le hout
  omega

/-- All of a reserve is given only if one of the two is empty. -/
theorem output_eq_reserveOut_iff (hin : 0 ≤ reserveIn) (hout : 0 ≤ reserveOut) (ha : 0 < amount) :
    output reserveIn reserveOut amount = reserveOut ↔ reserveIn = 0 ∨ reserveOut = 0 := by
  have hle := output_le hin hout ha
  have hprod := Int.mul_nonneg hin hout
  rw [← mul_eq_zero]
  constructor
  · intro h
    have := (le_output_iff hin ha).mp h.ge
    rw [Int.sub_self, Int.mul_zero] at this
    omega
  · intro h
    refine le_antisymm hle ((le_output_iff hin ha).mpr ?_)
    rw [h, Int.sub_self, Int.mul_zero]

/-- A second swap gives what it can within the quote for both amounts at once. -/
theorem output_add_le (reserveOut : Int) (hin : 0 ≤ reserveIn) (ha : 0 < amount) (hm : 0 < more) :
    output reserveIn reserveOut amount +
        output (reserveIn + amount) (reserveOut - output reserveIn reserveOut amount) more ≤
      output reserveIn reserveOut (amount + more) := by
  rw [le_output_iff hin (by omega)]
  have hfirst := product_le reserveOut hin ha
  have hsecond := product_le (reserveOut - output reserveIn reserveOut amount)
    (show 0 ≤ reserveIn + amount by omega) hm
  rw [← Int.add_assoc, ← Int.sub_sub]
  exact hfirst.trans hsecond

/-- Rounding once more costs at most one unit. -/
theorem output_le_add (reserveOut : Int) (hin : 0 ≤ reserveIn) (ha : 0 < amount) (hm : 0 < more) :
    output reserveIn reserveOut (amount + more) ≤ output reserveIn reserveOut amount +
      output (reserveIn + amount) (reserveOut - output reserveIn reserveOut amount) more + 1 := by
  generalize hfirst : output reserveIn reserveOut amount = first
  have hboth := product_le reserveOut hin (show 0 < amount + more by omega)
  -- One unit more in the first swap would have been too much.
  have hmost : (reserveIn + amount) * (reserveOut - (first + 1)) < reserveIn * reserveOut := by
    rw [← Int.not_le, ← le_output_iff hin ha]
    omega
  have hsecond : output reserveIn reserveOut (amount + more) - 1 - first ≤
      output (reserveIn + amount) (reserveOut - first) more := by
    rw [le_output_iff (by omega) hm]
    linarith
  omega

/-- What a swap gave buys back no more than was sold. -/
theorem output_back_le (hin : 0 ≤ reserveIn) (hout : 0 ≤ reserveOut) (ha : 0 < amount)
    (hpos : 0 < output reserveIn reserveOut amount) :
    output (reserveOut - output reserveIn reserveOut amount) (reserveIn + amount)
      (output reserveIn reserveOut amount) ≤ amount := by
  have hkept := product_le reserveOut hin ha
  have hle := output_le hin hout ha
  generalize output reserveIn reserveOut amount = given at *
  by_contra hmore
  rw [Int.not_le, ← Int.add_one_le_iff, le_output_iff (by omega) hpos] at hmore
  linarith

/-! ### Quotes for any values -/

/-- Two values given for a swap sell an amount of one token: of the first if its value is positive, and
otherwise of the second. The reserves are those that the amount goes into and comes out of. -/
inductive Sells (p : Pool) (amount0 amount1 : Value) : (reserveIn reserveOut amount : Int) → Prop
  | first {amount : Int} (whole : amount0.toInt? = some amount) (pos : 0 < amount) :
    Sells p amount0 amount1 p.reserve0 p.reserve1 amount
  | second {amount : Int} (kept : amount0.ask .greater (.int 0) = .ok false)
    (whole : amount1.toInt? = some amount) (pos : 0 < amount) :
    Sells p amount0 amount1 p.reserve1 p.reserve0 amount

theorem outputOf_of_toInt? {v : Value} (h : v.toInt? = some amount) (hin : 0 ≤ reserveIn)
    (ha : 0 < amount) :
    outputOf reserveIn reserveOut v = .ok (.int (output reserveIn reserveOut amount)) := by
  have hgt : compare amount 0 = .gt := compare_gt_iff_gt.mpr ha
  have hsum : compare (reserveIn + amount) 0 = .gt := compare_gt_iff_gt.mpr (by omega)
  have hzero : (Quantity.int (reserveIn + amount)).isZero = false := by
    show (some (compare (reserveIn + amount) 0) == some .eq) = false
    rw [hsum]
    rfl
  unfold outputOf
  rw [Value.ask_of_toInt? h, hgt, Value.toQuantity?_of_toInt? h]
  show (if (Quantity.int (reserveIn + amount)).isZero = true then _ else _) = _
  rw [hzero, output_of_pos reserveOut hin ha]
  rfl

theorem quoteSwap_of_sells {amount0 amount1 : Value} (h0 : 0 ≤ p.reserve0) (h1 : 0 ≤ p.reserve1)
    (h : p.Sells amount0 amount1 reserveIn reserveOut amount) :
    p.quoteSwap amount0 amount1 = .ok (.int (output reserveIn reserveOut amount)) := by
  unfold quoteSwap
  cases h with
  | first whole pos =>
    have hask : amount0.ask .greater (.int 0) = .ok true := by
      rw [Value.ask_of_toInt? whole, compare_gt_iff_gt.mpr pos]
      rfl
    rw [whole, hask]
    cases amount1.toInt? with
    | none => exact outputOf_of_toInt? whole h0 pos
    | some n => exact congrArg (fun o => Except.ok (Quantity.int o)) (if_pos pos)
  | second kept whole pos =>
    rw [whole, kept]
    cases hfirst : amount0.toInt? with
    | none => exact outputOf_of_toInt? whole h1 pos
    | some n =>
      have hn : ¬ 0 < n := by
        intro hpos
        rw [Value.ask_of_toInt? hfirst, compare_gt_iff_gt.mpr hpos] at kept
        cases kept
      exact congrArg (fun o => Except.ok (Quantity.int o)) (if_neg hn)

/-- A swap that sells an amount has a quote: the most that leaves the product of the reserves no less
than it was. It is never negative and never more than there is, and all there is only if one of the
reserves is empty. -/
theorem quoteSwap_isGreatest {amount0 amount1 : Value} (h0 : 0 ≤ p.reserve0) (h1 : 0 ≤ p.reserve1)
    (h : p.Sells amount0 amount1 reserveIn reserveOut amount) :
    ∃ o : Int, p.quoteSwap amount0 amount1 = .ok (.int o) ∧
      IsGreatest {o : Int | (reserveIn + amount) * (reserveOut - o) ≥ reserveIn * reserveOut} o ∧
      0 ≤ o ∧ o ≤ reserveOut ∧ (o = reserveOut ↔ reserveIn = 0 ∨ reserveOut = 0) := by
  obtain ⟨hin, hout, ha⟩ : 0 ≤ reserveIn ∧ 0 ≤ reserveOut ∧ 0 < amount := by
    cases h with
    | first _ pos => exact ⟨h0, h1, pos⟩
    | second _ _ pos => exact ⟨h1, h0, pos⟩
  refine ⟨output reserveIn reserveOut amount, quoteSwap_of_sells h0 h1 h, ⟨?_, ?_⟩,
    output_nonneg hin hout ha, output_le hin hout ha, output_eq_reserveOut_iff hin hout ha⟩
  · exact product_le reserveOut hin ha
  · intro o ho
    exact (le_output_iff hin ha).mpr ho

/-- The second token is sold, since the first amount is not positive. -/
theorem quoteSwap_isGreatest_second :
    (⟨1, [], [], 100, 20000, 1414⟩ : Pool).quoteSwap (.int (-3)) (.int 20001) = .ok (.int 50) ∧
      IsGreatest {o : Int | (20000 + 20001) * (100 - o) ≥ 20000 * 100} 50 := by
  have hsells : Sells ⟨1, [], [], 100, 20000, 1414⟩ (.int (-3)) (.int 20001) 20000 100 20001 :=
    .second rfl rfl (by decide)
  obtain ⟨o, hquote, hgreatest, -⟩ := quoteSwap_isGreatest (by decide) (by decide) hsells
  cases hquote
  exact ⟨rfl, hgreatest⟩

/-! ### Runs of swaps -/

/-- What a pool gives for an amount of a token. -/
def given (side : Side) (p : Pool) (amount : Int) : Int :=
  match side with
  | .first => p.swapOutput amount 0
  | .second => p.swapOutput 0 amount

/-- Sells amounts of a token one after the other, each to the pool that the one before it left. The
result is the sum of what is given, with the pool that is left. -/
def sellEach (side : Side) (p : Pool) : (amounts : List Int) → Except PoolFault (Int × Pool)
  | [] => .ok (0, p)
  | amount :: amounts => do
    let q ← p.trade (side.sale amount)
    let (later, r) ← sellEach side q amounts
    pure (p.given side amount + later, r)

/-- What there is of a token. -/
def reserve (p : Pool) : Side → Int
  | .first => p.reserve0
  | .second => p.reserve1

variable {side : Side}

theorem given_of_pos (p : Pool) (side : Side) (ha : 0 < amount) :
    p.given side amount = output (p.reserve side) (p.reserve side.other) amount := by
  cases side with
  | first => exact if_pos ha
  | second => rfl

theorem given_of_not_pos (p : Pool) (side : Side) (ha : ¬ 0 < amount) : p.given side amount = 0 := by
  cases side with
  | first => exact (if_neg ha).trans (if_pos (.inl le_rfl))
  | second => exact if_pos (.inl (by omega))

/-- A sale adds to one reserve and takes from the other. -/
theorem trade_sale (p : Pool) (side : Side) (ha : 0 < amount) :
    ∃ q, p.trade (side.sale amount) = .ok q ∧ q.reserve side = p.reserve side + amount ∧
      q.reserve side.other = p.reserve side.other - p.given side amount := by
  cases side with
  | first => exact ⟨_, if_pos ha, rfl, rfl⟩
  | second => exact ⟨_, rfl, rfl, rfl⟩

/-- The sales after the first one are those of the pool that it leaves. -/
theorem sellEach_cons {q r : Pool} {amounts : List Int} {total : Int}
    (hq : p.trade (side.sale amount) = .ok q) (h : q.sellEach side amounts = .ok (total, r)) :
    p.sellEach side (amount :: amounts) = .ok (p.given side amount + total, r) := by
  show (p.trade (side.sale amount) >>= fun q => q.sellEach side amounts >>= _) = _
  rw [hq]
  show (q.sellEach side amounts >>= _) = _
  rw [h]
  rfl

/-- Sales one after the other give no more than one sale of the sum, and at most one unit less for each
sale after the first. -/
theorem sellEach_of_pos {amounts : List Int} (hin : 0 ≤ p.reserve side)
    (h : ∀ a ∈ amount :: amounts, 0 < a) :
    ∃ total q, p.sellEach side (amount :: amounts) = .ok (total, q) ∧
      total ≤ p.given side (amount :: amounts).sum ∧
      p.given side (amount :: amounts).sum ≤ total + amounts.length := by
  induction amounts generalizing p amount with
  | nil =>
    obtain ⟨q, hq, -⟩ := trade_sale p side (h amount List.mem_cons_self)
    exact ⟨_, q, sellEach_cons hq rfl, by simp, by simp⟩
  | cons later amounts ih =>
    obtain ⟨ha, hlater⟩ := List.forall_mem_cons.mp h
    have hsum := List.sum_pos _ hlater (List.cons_ne_nil _ _)
    obtain ⟨q, hq, hside, hother⟩ := trade_sale p side ha
    obtain ⟨total, r, hr, hle, hge⟩ := ih (p := q) (by omega) hlater
    have hadd := output_add_le (p.reserve side.other) hin ha hsum
    have hloss := output_le_add (p.reserve side.other) hin ha hsum
    rw [given_of_pos q side hsum, hside, hother, given_of_pos p side ha] at hle hge
    have hall := given_of_pos p side (show 0 < amount + (later :: amounts).sum by omega)
    refine ⟨_, r, sellEach_cons hq hr, ?_, ?_⟩
    · rw [List.sum_cons, hall, given_of_pos p side ha]
      omega
    · rw [List.sum_cons, hall, given_of_pos p side ha, List.length_cons]
      omega

/-- Amounts of a token that are sold one after the other give no more than their sum does at once, and
at most one unit less for each sale after the first. What a sale gave buys back no more than was sold. -/
theorem splitting_never_profits (side : Side) (h0 : 0 ≤ p.reserve0) (h1 : 0 ≤ p.reserve1) :
    (∀ amounts : List Int, 1 ≤ amounts.length → (∀ a ∈ amounts, 0 < a) →
      ∃ total q, p.sellEach side amounts = .ok (total, q) ∧ total ≤ p.given side amounts.sum ∧
        p.given side amounts.sum - (amounts.length - 1) ≤ total) ∧
    ∀ amount, 0 < amount → ∃ q, p.trade (side.sale amount) = .ok q ∧
      q.given side.other (p.given side amount) ≤ amount := by
  have hnonneg (side : Side) : 0 ≤ p.reserve side := by
    cases side with
    | first => exact h0
    | second => exact h1
  constructor
  · intro amounts hlen hpos
    obtain ⟨amount, amounts, rfl⟩ := List.exists_cons_of_length_pos hlen
    obtain ⟨total, q, hq, hle, hge⟩ := sellEach_of_pos (hnonneg side) hpos
    refine ⟨total, q, hq, hle, ?_⟩
    rw [List.length_cons]
    omega
  · intro amount ha
    obtain ⟨q, hq, hside, hother⟩ := trade_sale p side ha
    refine ⟨q, hq, ?_⟩
    by_cases hpos : 0 < p.given side amount
    · rw [given_of_pos q side.other hpos, Side.other_other, hside, hother]
      rw [given_of_pos p side ha] at hpos ⊢
      exact output_back_le (hnonneg side) (hnonneg side.other) ha hpos
    · rw [given_of_not_pos q side.other hpos]
      exact ha.le

/-- Three units that are sold one by one give nothing, and at once they give two: the loss is as large as
it can be. -/
theorem splitting_never_profits_thrice :
    let p : Pool := ⟨1, [], [], 1000, 1000, 1000⟩
    (∃ q, p.sellEach .first [1, 1, 1] = .ok (0, q) ∧ p.given .first 3 = 2 ∧ (2 : Int) - (3 - 1) ≤ 0) ∧
      ∃ q, p.trade (.swap 500 0) = .ok q ∧ p.given .first 500 = 333 ∧ q.given .second 333 ≤ 500 := by
  intro p
  obtain ⟨hsplit, hback⟩ := splitting_never_profits (p := p) .first (by decide) (by decide)
  constructor
  · obtain ⟨total, q, hq, -, hge⟩ := hsplit [1, 1, 1] (by decide) (by decide)
    have htotal : p.sellEach .first [1, 1, 1] = .ok (0, _) := rfl
    cases htotal.symm.trans hq
    exact ⟨_, hq, rfl, hge⟩
  · obtain ⟨q, hq, hle⟩ := hback 500 (by decide)
    exact ⟨q, hq, rfl, hle⟩

end Pool

end LedgerWire
