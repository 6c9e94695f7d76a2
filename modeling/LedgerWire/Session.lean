import LedgerWire.Amm.Program

/-!
# Sessions

A session has one active configuration. It is replaced as a whole, changed setting by setting, and
asked for by calls that leave open what they may spend. A step that fails changes nothing.
-/

namespace LedgerWire

/-- A call that is encoded under the active configuration. -/
inductive Request
  | call (method args : Value) (offered : Candidate)
  | contract (call : ContractCall)
  | program (call : ProgramCall) (program owner : Value)

def Request.encode (r : Request) (c : Config) (spending : Spending) : Except Error Bytes :=
  match r with
  | .call m args offered => c.encodeCall m args spending offered
  | .contract k => k.encode c spending
  | .program k id owner => k.encode c id owner spending

namespace Session

inductive Step
  /-- Reads a configuration from a text. -/
  | load (t : Text)
  /-- Goes back to the configuration at the beginning. -/
  | reset
  /-- Gives a setting a value without a look at it. -/
  | assign (sectionKey key : Text) (value : Value)
  /-- Looks at the configuration. -/
  | look
  | request (r : Request) (spending : Spending)

inductive Answer
  | config (c : Config)
  | bytes (bs : Bytes)

/-- The answer to a step, and the configuration that is active afterwards. -/
def step (active : Config) : Step → Except Error Answer × Config
  | .load t =>
    match Config.parse t with
    | .ok c => (.ok (.config c), c)
    | .error fault => (.error (.config fault), active)
  | .reset => (.ok (.config Config.default), Config.default)
  | .assign sectionKey key value =>
    match active.assign sectionKey key value with
    | .ok c => (.ok (.config c), c)
    | .error fault => (.error (.config fault), active)
  | .look => (.ok (.config active), active)
  | .request r spending => ((r.encode active spending).map .bytes, active)

/-- The answers to steps that follow one another, and the configuration after the last. -/
def run (active : Config) : List Step → List (Except Error Answer) × Config
  | [] => ([], active)
  | s :: steps =>
    let (answer, next) := step active s
    let (answers, last) := run next steps
    (answer :: answers, last)

end Session

end LedgerWire
