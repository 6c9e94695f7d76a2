import LedgerWire.Account
import LedgerWire.Address.Derived
import LedgerWire.Address.Seed
import LedgerWire.Amm.Amount
import LedgerWire.Config
import LedgerWire.Hash.Message
import LedgerWire.Pool.Price
import LedgerWire.Pool.Quote
import LedgerWire.Schema.Catalog
import LedgerWire.Schema.Decode
import LedgerWire.Text.Base64

/-!
# Errors

Everything that can go wrong in an operation that joins several parts of the library.
-/

namespace LedgerWire

/-- A key of an account that a program is to touch is none. -/
inductive AccountKeyFault
  | kind (given : Kind)
  | length (got : Nat)
  deriving DecidableEq, Repr

def AccountKeyFault.message : AccountKeyFault → Text
  | .kind given => Text.join ["Account keys must be bytes, got ", given.name]
  | .length got => Text.join ["Account keys must be 32 bytes, got ", Text.ofNat got]

/-- An event does not have exactly one kind. -/
inductive EventFault
  | noKind
  | severalKinds
  | noMapping (kind : Kind)
  deriving DecidableEq, Repr

def EventFault.message : EventFault → Text
  | .noKind => "not enough values to unpack (expected 1, got 0)"
  | .severalKinds => "too many values to unpack (expected 1)"
  | .noMapping kind => Text.join ["'", kind.name, "' object has no attribute 'keys'"]

inductive Error
  | schema (fault : SchemaFault)
  | encode (error : EncodeError)
  | decode (error : DecodeError)
  /-- Something else than a byte string is given to decode. -/
  | notBytes (kind : Kind)
  | catalog (fault : Catalog.Unknown)
  | field (fault : FieldFault)
  | cast (fault : CastFault)
  | account (fault : AccountFault)
  | accountKey (fault : AccountKeyFault)
  | address (fault : AddressFault)
  | curve (fault : Curve.Fault)
  | hex (fault : Hex.Fault)
  | seed (fault : SeedFault)
  | digest (fault : MessageFault)
  | config (fault : ConfigFault)
  | amount (fault : AmountFault)
  | pool (fault : PoolFault)
  | price (fault : PriceFault)
  | quote (fault : QuoteFault)
  | shares (fault : Value.Incomparable)
  | event (fault : EventFault)
  | base64 (fault : Base64.Fault)
  | order (fault : Value.Incomparable)
  deriving Repr

def Error.message : Error → Text
  | .schema fault => fault.message
  | .encode error => error.message
  | .decode error => error.message
  | .notBytes kind => Text.join ["decode expects bytes, got ", kind.name]
  | .catalog fault => fault.message
  | .field fault => fault.message
  | .cast fault => fault.message
  | .account fault => fault.message
  | .accountKey fault => fault.message
  | .address fault => fault.message
  | .curve fault => fault.message
  | .hex fault => fault.message
  | .seed fault => fault.message
  | .digest fault => fault.message
  | .config fault => fault.message
  | .amount fault => fault.message
  | .pool fault => fault.message
  | .price fault => fault.message
  | .quote fault => fault.message
  | .shares fault => fault.message
  | .event fault => fault.message
  | .base64 .notAscii => Base64.Fault.notAscii.message
  | .base64 fault => Text.join ["Log is not valid base64: ", fault.message]
  | .order fault => fault.message

end LedgerWire
