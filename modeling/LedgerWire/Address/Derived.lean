import LedgerWire.Address.Curve
import LedgerWire.Hash.Sha256
import LedgerWire.Text.Hex
import LedgerWire.Value.Parts

/-!
# Derived addresses

The address that a program derives from seeds is a digest of the seeds, one after the other, the
identity of the program and a marker. It counts only if it encodes no point of the curve, so that
nobody has a secret key for it. `find` appends one more seed of a single byte, the bump, and takes the
greatest bump whose digest counts.
-/

namespace LedgerWire

inductive AddressFault
  | programKind (kind : Kind)
  | programLength (got : Nat)
  | hex (fault : Hex.Fault)
  | noLength (kind : Kind)
  | tooManySeeds (got : Nat)
  | seedKind (kind : Kind)
  | longSeed (got : Nat)
  | noRoomForBump
  | onCurve
  | noBump
  deriving DecidableEq, Repr

namespace Address

def programSize : Nat := 32

def maxSeeds : Nat := 16

def maxSeedLength : Nat := 32

end Address

def AddressFault.message : AddressFault → Text
  | .programKind kind => Text.join ["Program id must be bytes or hex text, got ", kind.name]
  | .programLength got =>
    Text.join ["Program id must be ", Text.ofNat Address.programSize, " bytes, got ",
      Text.ofNat got]
  | .hex fault => fault.message
  | .noLength kind => Text.join ["object of type '", kind.name, "' has no len()"]
  | .tooManySeeds got =>
    Text.join ["At most ", Text.ofNat Address.maxSeeds, " seeds allowed, got ", Text.ofNat got]
  | .seedKind kind => Text.join ["Seeds must be bytes, got ", kind.name]
  | .longSeed got =>
    Text.join ["Seed of ", Text.ofNat got, " bytes exceeds ", Text.ofNat Address.maxSeedLength]
  | .noRoomForBump =>
    Text.join ["At most ", Text.ofNat (Address.maxSeeds - 1), " seeds allowed alongside the bump"]
  | .onCurve => "Derived address lies on the Ed25519 curve"
  | .noBump => "Exhausted all 256 bump values"

namespace Address

/-- The identity of a program, given as bytes or in hexadecimal. -/
def programOf : Value → Except AddressFault Bytes
  | .text t => (Hex.decodeExactly programSize t).mapError .hex
  | .bytes bs => if bs.length = programSize then .ok bs else .error (.programLength bs.length)
  | v => .error (.programKind v.kind)

def seedOf : Value → Except AddressFault Bytes
  | .bytes bs => if bs.length ≤ maxSeedLength then .ok bs else .error (.longSeed bs.length)
  | v => .error (.seedKind v.kind)

/-- Seeds in order; the first that is none is reported. -/
def seedList : List Value → Except AddressFault (List Bytes)
  | [] => .ok []
  | item :: items => do
    let seed ← seedOf item
    let seeds ← seedList items
    pure (seed :: seeds)

/-- The seeds that a value gives. Their number is checked before any of them. -/
def seedsOf (value : Value) : Except AddressFault (List Bytes) := do
  let some parts := value.parts? | .error (.noLength value.kind)
  if maxSeeds < parts.length then .error (.tooManySeeds parts.length) else seedList parts

/-- The end of what is digested. -/
def marker : Bytes := "ProgramDerivedAddress".toList.map fun c => UInt8.ofNat c.toNat

/-- What is digested. -/
def preimage (seeds : List Bytes) (program : Bytes) : Bytes := seeds.flatten ++ program ++ marker

/-- A digest, and the test for digests that do not count. -/
structure Scheme where
  hash : Bytes → Bytes
  onCurve : Bytes → Bool

/-- The scheme of the ledger. -/
def ledger : Scheme := ⟨Sha256.digest, Curve.isOnCurve⟩

namespace Scheme

/-- The digest for a list of seeds that ends with its bump. -/
def candidate (scheme : Scheme) (seeds : List Bytes) (program : Bytes) : Bytes :=
  scheme.hash (preimage seeds program)

/-- The address for a list of seeds that ends with its bump. -/
def create (scheme : Scheme) (seeds : List Bytes) (program : Bytes) : Except AddressFault Bytes :=
  let address := scheme.candidate seeds program
  if scheme.onCurve address then .error .onCurve else .ok address

/-- The greatest bump below `bound` whose digest counts, after that digest. -/
def search (scheme : Scheme) (seeds : List Bytes) (program : Bytes) : (bound : Nat) →
    Option (Bytes × Nat)
  | 0 => none
  | bump + 1 =>
    let address := scheme.candidate (seeds ++ [[UInt8.ofNat bump]]) program
    if scheme.onCurve address then search scheme seeds program bump else some (address, bump)

/-- The address for seeds, and its bump. -/
def find (scheme : Scheme) (seeds : List Bytes) (program : Bytes) :
    Except AddressFault (Bytes × Nat) :=
  if maxSeeds ≤ seeds.length then .error .noRoomForBump
  else match scheme.search seeds program 256 with
    | some found => .ok found
    | none => .error .noBump

/-- `create` for values that give program and seeds. -/
def createFor (scheme : Scheme) (seeds program : Value) : Except AddressFault Bytes := do
  let program ← programOf program
  let seeds ← seedsOf seeds
  scheme.create seeds program

/-- `find` for values that give program and seeds. -/
def findFor (scheme : Scheme) (seeds program : Value) : Except AddressFault (Bytes × Nat) := do
  let program ← programOf program
  let seeds ← seedsOf seeds
  scheme.find seeds program

/-- `findFor` with the program first. -/
def derive (scheme : Scheme) (program seeds : Value) : Except AddressFault (Bytes × Nat) :=
  scheme.findFor seeds program

end Scheme

end Address

end LedgerWire
