import CoinLedger.Proofs.Block.Checked
import CoinLedger.Proofs.View.InPlace

/-! Runs of blocks. The transactions of the accepted blocks, one after another, are a single list
that the ledger takes in from beginning to end; every law about a run is one about that list. -/
namespace CoinLedger
namespace CoinView

/-- The blocks of a sequence that are accepted when each is connected to what those before left. -/
def accepted (view : CoinView) : List Block → List Block
  | [] => []
  | block :: rest =>
    match view.connect block with
    | (.valid, after) => block :: after.accepted rest
    | (.invalid _, after) => after.accepted rest

/-- What a sequence of blocks leaves. -/
def connectAll (view : CoinView) (blocks : List Block) : CoinView :=
  blocks.foldl (fun view block => (view.connect block).2) view

/-- The transactions of the accepted blocks. -/
def acceptedTxs (view : CoinView) (blocks : List Block) : List Transaction :=
  (view.accepted blocks).flatMap (·.transactions)

theorem accepted_append (view : CoinView) (front rest : List Block) :
    view.accepted (front ++ rest)
      = view.accepted front ++ (view.connectAll front).accepted rest := by
  induction front generalizing view with
  | nil => rfl
  | cons block tail ih =>
    rw [List.cons_append, accepted, accepted, connectAll, List.foldl_cons]
    cases hc : view.connect block with
    | mk verdict after =>
      cases verdict with
      | valid => exact congrArg (block :: ·) (ih after)
      | invalid reason => exact ih after

theorem acceptedTxs_append (view : CoinView) (front rest : List Block) :
    view.acceptedTxs (front ++ rest)
      = view.acceptedTxs front ++ (view.connectAll front).acceptedTxs rest := by
  rw [acceptedTxs, accepted_append, List.flatMap_append, acceptedTxs, acceptedTxs]

theorem process_append {view mid done : CoinView} {txs rest : List Transaction}
    (h : view.process txs = .ok mid) (hr : mid.process rest = .ok done) :
    view.process (txs ++ rest) = .ok done := by
  induction txs generalizing view with
  | nil =>
    cases h
    exact hr
  | cons tx tail ih =>
    obtain ⟨hv, ht⟩ := process_cons_iff.mp h
    exact process_cons_iff.mpr ⟨hv, ih ht⟩

/-- Every transaction was verified against what the ones before it left. -/
theorem verify_of_process {view done : CoinView} {txs : List Transaction}
    (h : view.process txs = .ok done) {i : Nat} {tx : Transaction} (hi : txs[i]? = some tx) :
    ((txs.take i).foldl update view).verify tx = .valid := by
  induction txs generalizing view i with
  | nil => cases hi
  | cons first rest ih =>
    obtain ⟨hv, hr⟩ := process_cons_iff.mp h
    cases i with
    | zero =>
      cases hi
      exact hv
    | succ i =>
      rw [List.getElem?_cons_succ] at hi
      rw [List.take_succ_cons, List.foldl_cons]
      exact ih hr hi

theorem foldl_of_process {view done : CoinView} {txs : List Transaction}
    (h : view.process txs = .ok done) : txs.foldl update view = done := by
  induction txs generalizing view with
  | nil =>
    cases h
    rfl
  | cons tx rest ih =>
    obtain ⟨_, hr⟩ := process_cons_iff.mp h
    exact ih hr

/-- The beginning of a list that is taken in is taken in as well. -/
theorem process_take {view done : CoinView} {txs : List Transaction}
    (h : view.process txs = .ok done) (n : Nat) :
    view.process (txs.take n) = .ok ((txs.take n).foldl update view) := by
  induction txs generalizing view n with
  | nil =>
    rw [List.take_nil]
    rfl
  | cons tx rest ih =>
    obtain ⟨hv, hr⟩ := process_cons_iff.mp h
    cases n with
    | zero => rfl
    | succ n => exact process_cons_iff.mpr ⟨hv, ih hr n⟩

/-- A refused block changes nothing. -/
theorem eq_of_connect_invalid {view after : CoinView} {block : Block} {reason : RejectReason}
    (h : view.connect block = (.invalid reason, after)) : after = view := by
  rw [connect] at h
  cases hk : block.check with
  | invalid other =>
    simp only [hk, Prod.mk.injEq] at h
    exact h.2.symm
  | valid =>
    cases hp : view.layer.process block.transactions with
    | error other =>
      simp only [hk, hp, Prod.mk.injEq] at h
      exact h.2.symm
    | ok done => simp [hk, hp] at h

end CoinView

open CoinView

/-- A run of blocks is the processing of all that it accepts. -/
theorem process_acceptedTxs (coins : CoinMap) (blocks : List Block) :
    (ledger coins).process ((ledger coins).acceptedTxs blocks)
        = .ok ((ledger coins).connectAll blocks)
      ∧ ∀ block ∈ (ledger coins).accepted blocks, block.check = .valid := by
  induction blocks generalizing coins with
  | nil => exact ⟨rfl, fun block hm => by cases hm⟩
  | cons block rest ih =>
    rw [acceptedTxs, accepted, connectAll, List.foldl_cons]
    cases hc : (ledger coins).connect block with
    | mk verdict after =>
      cases verdict with
      | invalid reason =>
        rw [eq_of_connect_invalid hc]
        exact ih coins
      | valid =>
        obtain ⟨hk, hp⟩ := connect_ledger_eq_valid_iff.mp hc
        obtain ⟨mid, _, rfl⟩ := ledger_of_process hp
        obtain ⟨hr, hs⟩ := ih mid
        refine ⟨?_, List.forall_mem_cons.mpr ⟨hk, hs⟩⟩
        rw [List.flatMap_cons]
        exact process_append hp hr

/-- A run from a ledger ends in a ledger. -/
theorem connectAll_ledger (coins : CoinMap) (blocks : List Block) :
    ∃ after : CoinMap, (ledger coins).connectAll blocks = ledger after := by
  obtain ⟨after, _, hl⟩ := ledger_of_process (process_acceptedTxs coins blocks).1
  exact ⟨after, hl⟩

theorem check_of_mem_acceptedTxs {coins : CoinMap} {blocks : List Block} {tx : Transaction}
    (h : tx ∈ (ledger coins).acceptedTxs blocks) : tx.check = .valid := by
  obtain ⟨block, hb, hm⟩ := List.mem_flatMap.mp h
  have hk := (process_acceptedTxs coins blocks).2 block hb
  exact checkTransactions_eq_valid_iff.mp (Block.check_eq_valid_iff.mp hk).2.2 tx hm

end CoinLedger
