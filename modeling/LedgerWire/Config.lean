import LedgerWire.Json.Reader
import LedgerWire.Json.Writer
import LedgerWire.Value.Order

/-!
# Configuration

Where the node is reached, what a call may spend unless it says otherwise, and how events are logged.
Values are carried as they are; only the two spending limits have to lie in the range of the wire
format, by their numbers alone. A configuration is read from a JSON document and written as one.
-/

namespace LedgerWire

structure RpcConfig where
  url : Value
  timeout : Value

structure SpendingConfig where
  gas : Value
  deposit : Value

structure LoggingConfig where
  level : Value
  format : Value

structure Config where
  rpc : RpcConfig
  spending : SpendingConfig
  logging : LoggingConfig

/-- The parts of a configuration. -/
inductive ConfigSection
  | rpc | spending | logging
  deriving DecidableEq, Repr

/-- The name of the type of a section in messages. -/
def ConfigSection.typeName : ConfigSection → Text
  | .rpc => "RpcConfig"
  | .spending => "TransactionConfig"
  | .logging => "LoggingConfig"

/-- The key of a section in a document. -/
def ConfigSection.key : ConfigSection → Text
  | .rpc => "rpc"
  | .spending => "transaction"
  | .logging => "logging"

inductive ConfigFault
  | document (fault : Json.SyntaxFault)
  | notObject (kind : Kind)
  | sectionNotObject (part : ConfigSection) (kind : Kind)
  | unknownKey (part : ConfigSection) (key : Text)
  | reservedKey (part : ConfigSection) (key : Text)
  | incomparable (fault : Value.Incomparable)
  | gasRange (given : Value)
  | depositRange (given : Value)
  | unknownSection (key : Text)
  deriving Repr

def ConfigFault.message : ConfigFault → Text
  | .document fault => fault.message
  | .notObject kind => Text.join ["'", kind.name, "' object has no attribute 'get'"]
  | .sectionNotObject part kind =>
    Text.join ["multivm_client.config.", part.typeName,
      "() argument after ** must be a mapping, not ", kind.name]
  | .unknownKey part key =>
    Text.join [part.typeName, ".__init__() got an unexpected keyword argument '", key, "'"]
  | .reservedKey part key =>
    Text.join [part.typeName, ".__init__() got multiple values for argument '", key, "'"]
  | .incomparable fault => fault.message
  | .gasRange given => Text.join ["default_gas ", given.display, " does not fit u64"]
  | .depositRange given => Text.join ["default_deposit ", given.display, " does not fit u128"]
  | .unknownSection key => Text.join ["'ClientConfig' object has no attribute '", key, "'"]

namespace Config

def default : Config where
  rpc := ⟨.text "http://127.0.0.1:8080/", .float (Binary64.ofNat 30)⟩
  spending := ⟨.int 300000, .int 0⟩
  logging := ⟨.text "INFO", .text "%(asctime)s %(name)s %(levelname)s %(message)s"⟩

/-- Every line ends in a newline alone. -/
def unifyNewlines : Text → Text
  | [] => []
  | c :: t =>
    if c.val ≠ 0x0D then c :: unifyNewlines t
    else match t with
      | [] => [CodePoint.ofChar '\n']
      | d :: t =>
        if d.val = 0x0A then CodePoint.ofChar '\n' :: unifyNewlines t
        else CodePoint.ofChar '\n' :: unifyNewlines (d :: t)

/-- Gives keys their values, one after the other; `assign` knows the keys of the section. -/
def assignAll {α : Type} (part : ConfigSection) (assign : Text → Value → α → Option α) :
    List (Text × Json) → α → Except ConfigFault α
  | [], settings => .ok settings
  | (key, value) :: members, settings =>
    match assign key value.toValue settings with
    | some settings => assignAll part assign members settings
    | none => .error (if key = "self" then .reservedKey part key else .unknownKey part key)

/-- The members of a section. A section that is missing has none. -/
def sectionMembers (part : ConfigSection) (members : List (Text × Json)) :
    Except ConfigFault (List (Text × Json)) :=
  match Json.member? part.key members with
  | none => .ok []
  | some (.object settings) => .ok settings
  | some other => .error (.sectionNotObject part other.toValue.kind)

end Config

namespace RpcConfig

def assign (key : Text) (value : Value) (c : RpcConfig) : Option RpcConfig :=
  if key = "url" then some { c with url := value }
  else if key = "timeout" then some { c with timeout := value }
  else none

def toEntries (c : RpcConfig) : Entries := [(.text "url", c.url), (.text "timeout", c.timeout)]

end RpcConfig

namespace SpendingConfig

def assign (key : Text) (value : Value) (c : SpendingConfig) : Option SpendingConfig :=
  if key = "default_gas" then some { c with gas := value }
  else if key = "default_deposit" then some { c with deposit := value }
  else none

def toEntries (c : SpendingConfig) : Entries :=
  [(.text "default_gas", c.gas), (.text "default_deposit", c.deposit)]

/-- Whether a value lies between zero and `limit`, ends included. -/
def inRange (limit : Int) (value : Value) : Except ConfigFault Bool := do
  let low ← (Value.ask .lessOrEqual (.int 0) value).mapError .incomparable
  if low then (Value.ask .lessOrEqual value (.int limit)).mapError .incomparable else pure false

def check (c : SpendingConfig) : Except ConfigFault Unit := do
  if !(← inRange (2 ^ 64 - 1) c.gas) then .error (.gasRange c.gas)
  if !(← inRange (2 ^ 128 - 1) c.deposit) then .error (.depositRange c.deposit)

end SpendingConfig

namespace LoggingConfig

def assign (key : Text) (value : Value) (c : LoggingConfig) : Option LoggingConfig :=
  if key = "level" then some { c with level := value }
  else if key = "format" then some { c with format := value }
  else none

def toEntries (c : LoggingConfig) : Entries :=
  [(.text "level", c.level), (.text "format", c.format)]

end LoggingConfig

namespace Config

/-- The configuration of a document. Sections are read in order, each with its own defaults; keys of
the document that are no sections do not count. -/
def ofJson : Json → Except ConfigFault Config
  | .object members => do
    let settings ← sectionMembers .rpc members
    let rpc ← assignAll .rpc RpcConfig.assign settings default.rpc
    let settings ← sectionMembers .spending members
    let spending ← assignAll .spending SpendingConfig.assign settings default.spending
    spending.check
    let settings ← sectionMembers .logging members
    let logging ← assignAll .logging LoggingConfig.assign settings default.logging
    pure ⟨rpc, spending, logging⟩
  | other => .error (.notObject other.toValue.kind)

/-- The configuration that a text holds. -/
def parse (t : Text) : Except ConfigFault Config := do
  let document ← (Json.parse (unifyNewlines t)).mapError .document
  ofJson document

def toValue (c : Config) : Value :=
  .map [(.text "rpc", .map c.rpc.toEntries), (.text "transaction", .map c.spending.toEntries),
    (.text "logging", .map c.logging.toEntries)]

/-- The text of a configuration, if all its values have places in a document. -/
def render? (c : Config) : Option Text := c.toValue.toJson?.map Json.render

/-- Gives one setting a value, whatever it is. A section takes settings that it does not know without
a trace. -/
def assign (sectionKey key : Text) (value : Value) (c : Config) : Except ConfigFault Config :=
  if sectionKey = "rpc" then .ok { c with rpc := (c.rpc.assign key value).getD c.rpc }
  else if sectionKey = "transaction" then
    .ok { c with spending := (c.spending.assign key value).getD c.spending }
  else if sectionKey = "logging" then
    .ok { c with logging := (c.logging.assign key value).getD c.logging }
  else .error (.unknownSection sectionKey)

end Config

end LedgerWire
