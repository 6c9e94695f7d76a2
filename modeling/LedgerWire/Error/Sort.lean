import LedgerWire.Error

/-!
# Sorts of errors

What a caller tells errors apart by, whatever their messages say. Errors of three sorts say that a value
of the right kind is none that is taken: the values at large, the names and addresses of accounts, and
the documents.
-/

namespace LedgerWire

inductive ErrorSort
  /-- A value is of a kind that is not taken. -/
  | kind
  /-- A value of the right kind is none that is taken. -/
  | value
  /-- A name or an address of an account is none. -/
  | account
  /-- A text is no document. -/
  | document
  | overflow
  | name
  | attribute
  | schema
  | mismatch
  | truncated
  | discriminant
  | encoding
  | trailing
  | onCurve
  | seedLimits
  | noBump
  | decimalOverflow
  | decimalDivision
  | decimalOperation
  deriving DecidableEq, Repr

/-- Whether errors of the sort say that a value of the right kind is none that is taken. -/
def ErrorSort.isValue : ErrorSort → Bool
  | .value => true
  | .account => true
  | .document => true
  | _ => false

def EncodeError.sort : EncodeError → ErrorSort
  | .mismatch _ _ => .mismatch
  | .floatWidth => .kind

def DecodeError.sort : DecodeError → ErrorSort
  | .truncated _ _ _ => .truncated
  | .truncatedFloat _ _ _ => .truncated
  | .truncatedItems _ _ => .truncated
  | .optionFlag _ _ => .discriminant
  | .variantTag _ _ _ _ => .discriminant
  | .boolByte _ _ => .encoding
  | .utf8 _ _ => .encoding
  | .trailing _ _ => .trailing
  | .floatWidth => .kind
  | .size _ => .overflow

def FieldFault.sort : FieldFault → ErrorSort
  | .missing _ => .name
  | .noNames _ => .kind

def ByteFault.sort : ByteFault → ErrorSort
  | .outOfRange => .value
  | .notInteger _ => .kind

def CastFault.sort : CastFault → ErrorSort
  | .item fault => fault.sort
  | .negativeCount => .value
  | .hugeCount => .overflow
  | .tooLong => .overflow
  | .text => .kind
  | .notBytes _ => .kind

def AccountFault.sort : AccountFault → ErrorSort
  | .addressCast fault => fault.sort
  | _ => .account

def AccountKeyFault.sort : AccountKeyFault → ErrorSort
  | .kind _ => .kind
  | .length _ => .value

def AddressFault.sort : AddressFault → ErrorSort
  | .programKind _ => .kind
  | .programLength _ => .value
  | .hex _ => .value
  | .noLength _ => .kind
  | .tooManySeeds _ => .seedLimits
  | .seedKind _ => .kind
  | .longSeed _ => .seedLimits
  | .noRoomForBump => .seedLimits
  | .onCurve => .onCurve
  | .noBump => .noBump

def Curve.Fault.sort : Curve.Fault → ErrorSort
  | .seedKind => .kind
  | .pointKind _ => .kind
  | .point fault => fault.sort
  | _ => .value

def SeedFault.sort : SeedFault → ErrorSort
  | .notInteger _ => .kind
  | .lengthKind _ => .kind
  | _ => .value

def ConfigFault.sort : ConfigFault → ErrorSort
  | .document _ => .document
  | .notObject _ => .attribute
  | .sectionNotObject _ _ => .kind
  | .unknownKey _ _ => .kind
  | .reservedKey _ _ => .kind
  | .incomparable _ => .kind
  | .gasRange _ => .value
  | .depositRange _ => .value
  | .unknownSection _ => .attribute

def DecimalFault.sort : DecimalFault → ErrorSort
  | .overflow => .decimalOverflow
  | .divisionByZero => .decimalDivision
  | .divisionUndefined => .decimalOperation

def AmountFault.sort : AmountFault → ErrorSort
  | .invalid _ => .value
  | .fraction _ => .value
  | .negative => .value
  | .infinite => .overflow
  | .arithmetic fault => fault.sort

def NumeralFault.sort : NumeralFault → ErrorSort
  | .invalid _ => .value
  | .notNumber => .value
  | .infinite => .overflow
  | .noNumeral _ => .kind

def MappingFault.sort : MappingFault → ErrorSort
  | .pairLength _ _ => .value
  | _ => .kind

def PoolFault.sort : PoolFault → ErrorSort
  | .field fault => fault.sort
  | .number fault => fault.sort
  | .token fault => fault.sort
  | .negativeProduct => .value

def PriceFault.sort : PriceFault → ErrorSort
  | .arithmetic fault => fault.sort
  | .decimals _ => .kind

def QuoteFault.sort : QuoteFault → ErrorSort
  | .quantity .tooLarge => .overflow
  | .hugeRepetition => .overflow
  | .pool fault => fault.sort
  | _ => .kind

def EventFault.sort : EventFault → ErrorSort
  | .noMapping _ => .attribute
  | _ => .value

def Base64.Fault.sort : Base64.Fault → ErrorSort
  | .notAscii => .value
  | _ => .encoding

def Error.sort : Error → ErrorSort
  | .schema (.size _) => .overflow
  | .schema _ => .schema
  | .encode error => error.sort
  | .decode error => error.sort
  | .notBytes _ => .kind
  | .catalog (.noKey _) => .kind
  | .catalog _ => .name
  | .field fault => fault.sort
  | .cast fault => fault.sort
  | .account fault => fault.sort
  | .accountKey fault => fault.sort
  | .address fault => fault.sort
  | .curve fault => fault.sort
  | .hex _ => .value
  | .seed fault => fault.sort
  | .digest _ => .kind
  | .config fault => fault.sort
  | .amount fault => fault.sort
  | .pool fault => fault.sort
  | .price fault => fault.sort
  | .quote fault => fault.sort
  | .shares _ => .kind
  | .event fault => fault.sort
  | .base64 fault => fault.sort
  | .order _ => .kind

end LedgerWire
