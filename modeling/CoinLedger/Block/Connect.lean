import CoinLedger.Block.Basic
import CoinLedger.Ledger.Verify

/-! Connecting a block: all of its transactions take effect, or none does. -/
namespace CoinLedger

namespace CoinView

/-- Verify the transactions and let each take effect before the next, up to the first refused. -/
def process (view : CoinView) : List Transaction → Except RejectReason CoinView
  | [] => .ok view
  | tx :: rest =>
    match view.verify tx with
    | .invalid reason => .error reason
    | .valid => (view.update tx).process rest

/-- Connect a block to a view. The transactions run on an overlay, and only a block that passes as
a whole is committed. -/
def connect (view : CoinView) (block : Block) : Verdict × CoinView :=
  match block.check with
  | .invalid reason => (.invalid reason, view)
  | .valid =>
    match view.layer.process block.transactions with
    | .error reason => (.invalid reason, view)
    | .ok done => (.valid, done.commit)

end CoinView
end CoinLedger
