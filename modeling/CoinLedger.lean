import CoinLedger.Decimal
import CoinLedger.Digest.Keccak256
import CoinLedger.Json.LedgerForms
import CoinLedger.Node
import CoinLedger.Settings.Environment
import CoinLedger.Transaction.Signed
import CoinLedger.Proofs.View.Agreement
import CoinLedger.Proofs.View.InPlace
import CoinLedger.Proofs.View.Layers
import CoinLedger.Proofs.View.Snapshots
import CoinLedger.Proofs.Block.Checked
import CoinLedger.Proofs.Value.Exact
import CoinLedger.Proofs.Value.Total
import CoinLedger.Proofs.Value.Accounting
import CoinLedger.Proofs.Chain.Run
import CoinLedger.Proofs.Encoding.Leading
import CoinLedger.Proofs.Chain.DoubleSpend
import CoinLedger.Proofs.Encoding.SelfDelimiting
import CoinLedger.Proofs.Chain.Counting
import CoinLedger.Proofs.Script.Locks
import CoinLedger.Proofs.Block.Commitment
import CoinLedger.Proofs.Chain.Authorization
import CoinLedger.Proofs.Chain.Provenance
import CoinLedger.Proofs.View.Covered
import CoinLedger.Proofs.Chain.Freshness
import CoinLedger.Proofs.Block.Exchange
import CoinLedger.Proofs.Value.Supply
import CoinLedger.Proofs.Transaction.Structure
import CoinLedger.Proofs.Transaction.Funding
import CoinLedger.Proofs.Transaction.SignedPart
import CoinLedger.Proofs.Block.Making
import CoinLedger.Proofs.Script.Composition
import CoinLedger.Proofs.Script.Noninterference
import CoinLedger.Proofs.Transaction.Payment
import CoinLedger.Proofs.Block.TopDown
import CoinLedger.Proofs.Block.Padding
import CoinLedger.Proofs.Block.Target
import CoinLedger.Proofs.Transaction.Effect
import CoinLedger.Proofs.Json.Grammar
import CoinLedger.Proofs.Json.Reading
import CoinLedger.Proofs.Json.Writing
import CoinLedger.Proofs.Json.RoundTrip
import CoinLedger.Proofs.Settings.Defaults
