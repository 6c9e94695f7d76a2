import LedgerWire.Hash.Keccak
import LedgerWire.Schema.Catalog
import LedgerWire.Text.Hex
import LedgerWire.Text.Lowercase
import LedgerWire.Value.Bytes
import LedgerWire.Value.Order

/-!
# Accounts

An account has a readable name or a 20-byte address. A name has up to sixty-four symbols, each of which
is a letter, a digit or one of `_`, `-` and `.` once it is made lowercase.
-/

namespace LedgerWire

inductive AccountFault
  | notText
  | tooLong
  | empty
  | symbols
  | addressLength (got : Nat)
  | addressHex (given : Text) (fault : Hex.Fault)
  | addressCast (fault : CastFault)
  deriving DecidableEq, Repr

def AccountFault.message : AccountFault → Text
  | .notText => "AccountID must be a string"
  | .tooLong => "AccountID is too long"
  | .empty => "AccountID is empty"
  | .symbols => "AccountID contains invalid symbols"
  | .addressLength got => Text.join ["EVM address must be 20 bytes, got ", Text.ofNat got]
  | .addressHex given fault =>
    Text.join ["Invalid EVM address ", given.quoted, ": ", fault.message]
  | .addressCast fault => fault.message

/-- Whether a code point is a small letter, a digit or a permitted mark. -/
def CodePoint.isAccountSymbol (c : CodePoint) : Bool :=
  let n := c.val
  (97 ≤ n && n ≤ 122) || (48 ≤ n && n ≤ 57) || n == 0x5F || n == 0x2D || n == 0x2E

namespace AccountName

def maxLength : Nat := 64

/-- What is wrong with a name, if anything. -/
def fault? (name : Text) : Option AccountFault :=
  if maxLength < name.length then some .tooLong
  else if name.isEmpty then some .empty
  else if !name.lowercase.all CodePoint.isAccountSymbol then some .symbols
  else none

end AccountName

/-- A readable name of an account. -/
structure AccountName where
  text : Text
  accepted : AccountName.fault? text = none
  deriving DecidableEq

namespace AccountName

def ofText (t : Text) : Except AccountFault AccountName :=
  match h : fault? t with
  | none => .ok ⟨t, h⟩
  | some fault => .error fault

end AccountName

/-- An address of twenty bytes. -/
structure EvmAddress where
  bytes : Bytes
  length_eq : bytes.length = 20
  deriving DecidableEq

namespace EvmAddress

def ofBytes (bs : Bytes) : Except AccountFault EvmAddress :=
  if h : bs.length = 20 then .ok ⟨bs, h⟩ else .error (.addressLength bs.length)

/-- The address that a value is cast to. -/
def ofValue (v : Value) : Except AccountFault EvmAddress :=
  (v.castBytes.mapError .addressCast).bind ofBytes

/-- The address that a text in hexadecimal spells. -/
def ofHex (t : Text) : Except AccountFault EvmAddress :=
  ((Hex.decodeExactly 20 t).mapError (.addressHex t)).bind ofBytes

/-- The address of a public key, given by the bytes of its coordinates: the end of their digest. -/
def ofPublicKey (coordinates : Bytes) : EvmAddress where
  bytes := (Keccak.digest coordinates).drop 12
  length_eq := by simp

end EvmAddress

inductive Account
  | named (name : AccountName)
  | evm (address : EvmAddress)
  deriving DecidableEq

namespace Account

/-- The account of a readable name. -/
def ofName : Value → Except AccountFault Account
  | .text t => (AccountName.ofText t).map .named
  | _ => .error .notText

/-- The account of an address. -/
def ofAddress (v : Value) : Except AccountFault Account := (EvmAddress.ofValue v).map .evm

/-- The account of an address in hexadecimal. -/
def ofHex (t : Text) : Except AccountFault Account := (EvmAddress.ofHex t).map .evm

/-- The value that is encoded for an account. -/
def toValue : Account → Value
  | .named name => .map [(.text "multivm", .text name.text)]
  | .evm address => .map [(.text "evm", .bytes address.bytes)]

/-- The account that a decoded value denotes. -/
def ofValue (v : Value) : Except AccountFault Account :=
  match v with
  | .map entries =>
    match Entries.field? "multivm" entries, Entries.field? "evm" entries with
    | some name, _ => ofName name
    | none, some address => ofAddress address
    | none, none => .error .notText
  | _ => .error .notText

/-- The class of an account and what it holds, from which sets take its digest. -/
def key : Account → Value
  | .named name => .list [.text "multivm", .text name.text]
  | .evm address => .list [.text "evm", .bytes address.bytes]

/-- Whether two accounts are of one class and hold the same. -/
def same : Account → Account → Bool
  | .named name, .named name' => name.text == name'.text
  | .evm address, .evm address' => address.bytes == address'.bytes
  | _, _ => false

/-- Puts an account into a set, unless one of the same digest is in it that is equal. -/
def insert (digest : Value → Int) (held : List Account) (a : Account) : List Account :=
  if held.any fun b => digest b.key == digest a.key && b.same a then held else held ++ [a]

/-- The set of the accounts, in the order in which they come into it. -/
def toSet (digest : Value → Int) (accounts : List Account) : List Account :=
  accounts.foldl (insert digest) []

/-- The account as it is displayed. -/
def display : Account → Text
  | .named name => name.text
  | .evm address => Hex.encode address.bytes

/-- The account as a message shows it. -/
def quoted : Account → Text
  | .named name => Text.join ["MultiVmAccountId(", name.text.quoted, ")"]
  | .evm address =>
    Text.join ["EvmAddress(", Text.quoted (Hex.mark ++ Hex.encode address.bytes), ")"]

end Account

end LedgerWire
