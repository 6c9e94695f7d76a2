import LedgerWire.Proofs.Result
import LedgerWire.Session
import Mathlib.Data.List.Induction
import Mathlib.Tactic.SplitIfs

/-!
# What a session does to its calls

Two values are all that a call takes from the session that it is made in: the limits on what it may
spend, where it leaves them open. `Session.settled` tells them from the steps before the call, the
latest first: what a limit was assigned since the configuration was replaced, or else what that
configuration says.
-/

namespace LedgerWire

/-- The limits on what a call may spend. -/
inductive Limit
  | gas | deposit
  deriving DecidableEq, Repr

namespace Limit

/-- The key of a limit in a configuration. -/
def key : Limit → Text
  | gas => "default_gas"
  | deposit => "default_deposit"

def of (c : SpendingConfig) : Limit → Value
  | gas => c.gas
  | deposit => c.deposit

end Limit

/-- What a call may spend once the limits are filled in that it leaves open. -/
def Spending.filled (given : Spending) (limits : Limit → Value) : Spending :=
  ⟨Config.orDefault given.gas (limits .gas), Config.orDefault given.deposit (limits .deposit)⟩

/-! ### What a call takes from a configuration -/

section Call

variable {c c' : Config} {given given' : Spending}

theorem orDefault_of_ne_none {v : Value} (hv : v ≠ .none) (other : Value) :
    Config.orDefault v other = v := by
  cases v with
  | none => exact absurd rfl hv
  | _ => rfl

/-- A limit that is filled in stays, whatever configuration is asked next. -/
theorem orDefault_orDefault {v limit other : Value} (h : limit = .none → other = .none) :
    Config.orDefault (Config.orDefault v limit) other = Config.orDefault v limit := by
  by_cases hv : v = .none
  · subst hv
    show Config.orDefault limit other = limit
    by_cases hl : limit = .none
    · subst hl
      exact h rfl
    · exact orDefault_of_ne_none hl other
  · rw [orDefault_of_ne_none hv, orDefault_of_ne_none hv]

theorem encodeCall_congr (hgas : Config.orDefault given.gas c.spending.gas =
      Config.orDefault given'.gas c'.spending.gas)
    (hdeposit : Config.orDefault given.deposit c.spending.deposit =
      Config.orDefault given'.deposit c'.spending.deposit)
    (method args : Value) (offered : Candidate) :
    c.encodeCall method args given offered = c'.encodeCall method args given' offered := by
  unfold Config.encodeCall
  rw [hgas, hdeposit]

namespace Request

variable (r : Request)

/-- Only the limits that are left open are taken from the configuration. -/
theorem encode_congr (hgas : Config.orDefault given.gas c.spending.gas =
      Config.orDefault given'.gas c'.spending.gas)
    (hdeposit : Config.orDefault given.deposit c.spending.deposit =
      Config.orDefault given'.deposit c'.spending.deposit) :
    r.encode c given = r.encode c' given' := by
  cases r with
  | call method args offered => exact encodeCall_congr hgas hdeposit _ _ _
  | contract call => exact encodeCall_congr hgas hdeposit _ _ _
  | program call program owner =>
    show (call.context Address.ledger program owner >>= fun context =>
      c.encodeCall (.text call.method) context given (.schema Catalog.programContext)) = _
    simp only [encodeCall_congr hgas hdeposit]
    rfl

theorem encode_filled (limits : Limit → Value) (hc : ∀ limit, limit.of c.spending = limits limit)
    (hc' : ∀ limit, limits limit = .none → limit.of c'.spending = .none) :
    r.encode c given = r.encode c' (given.filled limits) := by
  have hgas : c.spending.gas = limits .gas := hc .gas
  have hdeposit : c.spending.deposit = limits .deposit := hc .deposit
  refine r.encode_congr ?_ ?_
  · rw [hgas]
    exact (orDefault_orDefault (hc' .gas)).symm
  · rw [hdeposit]
    exact (orDefault_orDefault (hc' .deposit)).symm

theorem encode_of_given (hgas : given.gas ≠ .none) (hdeposit : given.deposit ≠ .none) :
    r.encode c given = r.encode c' given := by
  refine r.encode_congr ?_ ?_
  · rw [orDefault_of_ne_none hgas, orDefault_of_ne_none hgas]
  · rw [orDefault_of_ne_none hdeposit, orDefault_of_ne_none hdeposit]

end Request

end Call

namespace Session

/-! ### Runs -/

theorem run_append (c : Config) (steps more : List Step) :
    run c (steps ++ more) = ((run c steps).1 ++ (run (run c steps).2 more).1,
      (run (run c steps).2 more).2) := by
  induction steps generalizing c with
  | nil => rfl
  | cons s steps ih =>
    show ((step c s).1 :: (run (step c s).2 (steps ++ more)).1,
      (run (step c s).2 (steps ++ more)).2) = _
    rw [ih]
    rfl

/-- The answer to a step is given under the configuration that the steps before it leave. -/
theorem getElem?_run (c : Config) (steps : List Step) (i : Nat) :
    (run c steps).1[i]? = steps[i]?.map fun s => (step (run c (steps.take i)).2 s).1 := by
  induction steps generalizing c i with
  | nil => rfl
  | cons s steps ih =>
    cases i with
    | zero => rfl
    | succ i => exact ih (step c s).2 i

theorem step_load_error {t : Text} {fault : ConfigFault} (h : Config.parse t = .error fault)
    (c : Config) : step c (.load t) = (.error (.config fault), c) := by
  simp only [step, h]

theorem step_load_ok {t : Text} {c : Config} (h : Config.parse t = .ok c) (active : Config) :
    step active (.load t) = (.ok (.config c), c) := by
  simp only [step, h]

/-- Nothing that was done before a reset is left after it. -/
theorem run_reset (c : Config) (before after : List Step) :
    run c (before ++ .reset :: after) =
      ((run c before).1 ++ .ok (.config Config.default) :: (run Config.default after).1,
        (run Config.default after).2) := by
  rw [run_append]
  rfl

/-! ### The limits that are settled -/

/-- What a limit is after steps, the latest of which comes first. -/
def settled (limit : Limit) : List Step → Value
  | [] => limit.of Config.default.spending
  | .load t :: earlier =>
    match Config.parse t with
    | .ok c => limit.of c.spending
    | .error _ => settled limit earlier
  | .reset :: _ => limit.of Config.default.spending
  | .assign sectionKey key value :: earlier =>
    if sectionKey = ConfigSection.spending.key ∧ key = limit.key then value
    else settled limit earlier
  | .look :: earlier => settled limit earlier
  | .request _ _ :: earlier => settled limit earlier

theorem of_assign (c : SpendingConfig) (limit : Limit) (key : Text) (value : Value) :
    limit.of ((c.assign key value).getD c) = if key = limit.key then value else limit.of c := by
  have hne : Limit.gas.key ≠ Limit.deposit.key := by decide
  show limit.of ((if key = Limit.gas.key then some { c with gas := value }
    else if key = Limit.deposit.key then some { c with deposit := value } else none).getD c) = _
  cases limit with
  | gas => split_ifs <;> rfl
  | deposit =>
    by_cases hdeposit : key = Limit.deposit.key
    · have hgas : key ≠ Limit.gas.key := fun h => hne (h.symm.trans hdeposit)
      simp only [if_neg hgas, if_pos hdeposit]
      rfl
    · simp only [if_neg hdeposit]
      split_ifs <;> rfl

/-- A limit changes with its own key in its own section, and with nothing else that is assigned. -/
theorem of_step_assign (c : Config) (limit : Limit) (sectionKey key : Text) (value : Value) :
    limit.of (step c (.assign sectionKey key value)).2.spending =
      if sectionKey = ConfigSection.spending.key ∧ key = limit.key then value
      else limit.of c.spending := by
  simp only [step, Config.assign]
  by_cases hspending : sectionKey = ConfigSection.spending.key
  · have hrpc : sectionKey ≠ ConfigSection.rpc.key := by
      rw [hspending]
      decide
    have hiff : (sectionKey = ConfigSection.spending.key ∧ key = limit.key) ↔ key = limit.key :=
      ⟨And.right, fun h => ⟨hspending, h⟩⟩
    rw [show (if sectionKey = "rpc" then _ else _) = _ from if_neg hrpc,
      show (if sectionKey = "transaction" then _ else _) = _ from if_pos hspending]
    simp only [hiff]
    exact of_assign c.spending limit key value
  · -- The other sections have no limits, and a section that is none of the three changes nothing.
    have hnot : ¬ (sectionKey = ConfigSection.spending.key ∧ key = limit.key) :=
      fun h => hspending h.1
    simp only [if_neg hnot, if_neg (show ¬ sectionKey = "transaction" from hspending)]
    split_ifs <;> rfl

/-- One step settles a limit as the last of the steps before a call does. -/
theorem of_step (c : Config) (limit : Limit) (s : Step) (earlier : List Step)
    (h : limit.of c.spending = settled limit earlier) :
    limit.of (step c s).2.spending = settled limit (s :: earlier) := by
  cases s with
  | load t =>
    cases ht : Config.parse t with
    | ok loaded =>
      rw [step_load_ok ht]
      unfold settled
      rw [ht]
    | error fault =>
      rw [step_load_error ht]
      unfold settled
      rw [ht]
      exact h
  | reset => rfl
  | assign sectionKey key value =>
    rw [of_step_assign, h]
    rfl
  | look => exact h
  | request r given => exact h

theorem of_run (limit : Limit) (steps : List Step) :
    limit.of (run Config.default steps).2.spending = settled limit steps.reverse := by
  induction steps using List.reverseRecOn with
  | nil => rfl
  | append_singleton steps s ih =>
    rw [run_append, List.reverse_append]
    exact of_step _ limit s _ ih

/-! ### Calls in a session -/

variable {steps steps' : List Step} {i i' : Nat} {r : Request} {given : Spending}

theorem answer_of_request (h : steps[i]? = some (.request r given)) (c : Config) :
    (run c steps).1[i]? = some ((r.encode (run c (steps.take i)).2 given).map .bytes) := by
  rw [getElem?_run, h]
  rfl

/-- Whatever steps a session takes from its beginning, a call is answered as if the limits that it
leaves open were given as they are settled before it, and under any configuration if none of them was
assigned nothing; with both limits given the answer is the same in every session. A text that is no
configuration changes nothing, and after a reset all goes as from the beginning. -/
theorem answers_as_settled :
    (∀ (steps : List Step) (i : Nat) (r : Request) (given : Spending),
      steps[i]? = some (.request r given) →
      ∀ c : Config, (∀ limit : Limit, settled limit (steps.take i).reverse = .none →
        limit.of c.spending = .none) →
      (run Config.default steps).1[i]? = some ((r.encode c
        (given.filled (settled · (steps.take i).reverse))).map .bytes)) ∧
    (∀ (steps steps' : List Step) (i i' : Nat) (r : Request) (given : Spending),
      steps[i]? = some (.request r given) →
      steps'[i']? = some (.request r given) → given.gas ≠ .none → given.deposit ≠ .none →
      (run Config.default steps).1[i]? = (run Config.default steps').1[i']?) ∧
    (∀ c t fault, Config.parse t = .error fault → step c (.load t) = (.error (.config fault), c)) ∧
    ∀ before after, run Config.default (before ++ .reset :: after) =
      ((run Config.default before).1 ++ .ok (.config Config.default) ::
        (run Config.default after).1, (run Config.default after).2) := by
  refine ⟨fun steps i r given h c hc => ?_, fun steps steps' i i' r given h h' hgas hdeposit => ?_,
    fun c t fault h => step_load_error h c, run_reset Config.default⟩
  · rw [answer_of_request h]
    rw [r.encode_filled _ (fun limit => of_run limit (steps.take i)) hc]
  · rw [answer_of_request h, answer_of_request h', r.encode_of_given hgas hdeposit]

/-- A call for a pool that leaves its gas open, after gas was assigned and a text was refused. -/
theorem answers_as_settled_assigned :
    let steps : List Step := [.assign "transaction" "default_gas" (.int 5), .load "\x7b",
      .request (.call (.text "get_pool") (.int 7) (.value .none)) ⟨.none, .int 1⟩, .reset,
      .request (.call (.text "get_pool") (.int 7) (.value .none)) ⟨.int 5, .int 1⟩]
    (∃ fault, step Config.default (.load "\x7b") = (.error (.config fault), Config.default)) ∧
      (run Config.default steps).1[2]? = some ((Config.default.encodeCall (.text "get_pool") (.int 7)
        ⟨.int 5, .int 1⟩ (.value .none)).map .bytes) ∧
      (run Config.default steps).1[4]? =
        (run Config.default [.request (.call (.text "get_pool") (.int 7) (.value .none))
          ⟨.int 5, .int 1⟩]).1[0]? ∧
      (run Config.default (steps.take 4)).2 = Config.default := by
  intro steps
  obtain ⟨hopen, hgiven, hrefused, hreset⟩ := answers_as_settled
  refine ⟨⟨_, hrefused Config.default "\x7b" _ rfl⟩, ?_, ?_, ?_⟩
  · refine hopen steps 2 _ _ rfl Config.default fun limit h => ?_
    cases limit with
    | gas => cases h
    | deposit => cases h
  · exact hgiven steps _ 4 0 _ _ rfl rfl nofun nofun
  · exact congrArg (·.2) (hreset (steps.take 3) [])

end Session

end LedgerWire
