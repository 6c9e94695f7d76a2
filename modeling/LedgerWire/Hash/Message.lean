import LedgerWire.Hash.Keccak
import LedgerWire.Hash.Sha256
import LedgerWire.Value.Order

/-!
# Messages to digest

Only byte strings can be digested. Other values are refused, by each of the two digests in its own
words; for Keccak a value that is empty, zero or nothing is the empty message.
-/

namespace LedgerWire

inductive MessageFault
  | text
  | noBuffer
  | notPassable (kind : Kind)
  deriving DecidableEq, Repr

def MessageFault.message : MessageFault → Text
  | .text => "Strings must be encoded before hashing"
  | .noBuffer => "object supporting the buffer API required"
  | .notPassable kind =>
    Text.join ["Object type <class '", kind.name, "'> cannot be passed to C code"]

/-- Whether a value is empty, zero, false or nothing. -/
def Value.isVoid : Value → Bool
  | .none => true
  | .text t => t.isEmpty
  | .bytes bs => bs.isEmpty
  | .list items => items.isEmpty
  | .map entries => entries.isEmpty
  | v => v.sameScalar (.int 0)

def Sha256.digestOf : Value → Except MessageFault Bytes
  | .bytes bs => .ok (digest bs)
  | .text _ => .error .text
  | _ => .error .noBuffer

def Keccak.digestOf : Value → Except MessageFault Bytes
  | .bytes bs => .ok (digest bs)
  | v => if v.isVoid then .ok (digest []) else .error (.notPassable v.kind)

end LedgerWire
