import LedgerWire.Proofs.Account.Identity
import LedgerWire.Proofs.Address.PublicKey
import LedgerWire.Proofs.Address.Spelling
import LedgerWire.Proofs.Address.Numbers
import LedgerWire.Proofs.Amm.Amount
import LedgerWire.Proofs.Amm.Owners
import LedgerWire.Proofs.Amm.Apart
import LedgerWire.Proofs.Config.Saved
import LedgerWire.Proofs.Envelope.Record
import LedgerWire.Proofs.Event.Transport
import LedgerWire.Proofs.Pool.Liquidity
import LedgerWire.Proofs.Pool.Price
import LedgerWire.Proofs.Pool.Shares
import LedgerWire.Proofs.Pool.Swaps
import LedgerWire.Proofs.Schema.CountCheck
import LedgerWire.Proofs.Schema.Description
import LedgerWire.Proofs.Schema.Extension
import LedgerWire.Proofs.Schema.FirstFault
import LedgerWire.Proofs.Schema.KeyOrder
import LedgerWire.Proofs.Schema.LeastSize
import LedgerWire.Proofs.Schema.Renaming
import LedgerWire.Value.Hex
