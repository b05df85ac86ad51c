import Mathlib.Data.List.Nodup
import CoinLedger.Proofs.Chain.History

/-! Counting at one place. Every naming of a place uses up an appearance of a coin there: one that
stood there in the beginning or one that a transaction made, each of them once and not before it was
made. This holds after every accepted transaction, also in the middle of a block, where the view in
use is the overlay that the block is worked through on. -/
namespace CoinLedger
open CoinView

namespace CoinView

/-- The view in use after the first `n` accepted transactions. -/
def viewAfter (view : CoinView) : List Block → Nat → CoinView
  | [], _ => view
  | block :: rest, n =>
    match view.connect block with
    | (.invalid _, after) => after.viewAfter rest n
    | (.valid, after) =>
      if n < block.transactions.length then (block.transactions.take n).foldl update view.layer
      else after.viewAfter rest (n - block.transactions.length)

theorem Agree.foldl_update {v w : CoinView} (h : v.Agree w) (txs : List Transaction) :
    (txs.foldl CoinView.update v).Agree (txs.foldl CoinView.update w) := by
  induction txs generalizing v w with
  | nil => exact h
  | cons tx rest ih => exact ih (h.update tx)

end CoinView

/-- The overlays and the commits answer like the transactions carried out one by one. -/
theorem agree_viewAfter (coins : CoinMap) (blocks : List Block) (n : Nat) :
    ((ledger coins).viewAfter blocks n).Agree
      ((((ledger coins).acceptedTxs blocks).take n).foldl update (ledger coins)) := by
  induction blocks generalizing coins n with
  | nil =>
    rw [viewAfter, acceptedTxs, accepted, List.flatMap_nil, List.take_nil]
    exact Agree.refl _
  | cons block rest ih =>
    rw [viewAfter, acceptedTxs, accepted]
    cases hc : (ledger coins).connect block with
    | mk verdict after =>
      cases verdict with
      | invalid reason =>
        rw [eq_of_connect_invalid hc]
        exact ih coins n
      | valid =>
        obtain ⟨_, hp⟩ := connect_ledger_eq_valid_iff.mp hc
        obtain ⟨mid, _, rfl⟩ := ledger_of_process hp
        have hm := foldl_of_process hp
        simp only [List.flatMap_cons]
        split
        · rename_i hn
          rw [List.take_append_of_le_length (by omega)]
          exact (Agree.refl (ledger coins)).layer.foldl_update _
        · rename_i hn
          rw [List.take_append, List.take_of_length_le (by omega), List.foldl_append, hm]
          exact ih mid _

/-- One transaction: what it names was there, and what is there afterwards was left or made. -/
theorem count_update_le {view : CoinView} {tx : Transaction} (hk : tx.check = .valid)
    (hv : view.verify tx = .valid) (point : OutPoint) :
    tx.prevouts.count point + ((view.update tx).hasCoin point).toNat
      ≤ (view.hasCoin point).toNat + tx.made.count point := by
  have hn := (Transaction.nodup_prevouts_of_check hk).count (a := point)
  have hu := hasCoin_update_iff view tx point
  have hm : point ∈ tx.made → 0 < tx.made.count point := List.count_pos_iff.mpr
  by_cases hp : point ∈ tx.prevouts
  · obtain ⟨coin, hc⟩ := coin?_of_verify hv hp
    rw [hn, if_pos hp, hasCoin_of_coin? hc]
    cases ha : (view.update tx).hasCoin point with
    | false => simp
    | true =>
      have hmade : point ∈ tx.made := (hu.mp ha).resolve_right fun hl => hl.1 hp
      have hpos := hm hmade
      simp only [Bool.toNat_true]
      omega
  · rw [hn, if_neg hp, Nat.zero_add]
    cases ha : (view.update tx).hasCoin point with
    | false => simp
    | true =>
      cases hu.mp ha with
      | inl hmade =>
        have hpos := hm hmade
        simp only [Bool.toNat_true]
        omega
      | inr hleft =>
        rw [hleft.2]
        omega

theorem count_process_le {view done : CoinView} {txs : List Transaction}
    (hk : ∀ tx ∈ txs, tx.check = .valid) (h : view.process txs = .ok done) (point : OutPoint) :
    (txs.flatMap (·.prevouts)).count point + (done.hasCoin point).toNat
      ≤ (view.hasCoin point).toNat + (txs.flatMap (·.made)).count point := by
  induction txs generalizing view with
  | nil =>
    cases h
    simp
  | cons tx rest ih =>
    obtain ⟨ht, hk⟩ := List.forall_mem_cons.mp hk
    obtain ⟨hv, hr⟩ := process_cons_iff.mp h
    have hstep := count_update_le ht hv point
    have hrest := ih hk hr
    simp only [List.flatMap_cons, List.count_append]
    omega

/-- After any number of the transactions of the accepted blocks, a place has been named, and has a
coin, no more often in all than it had a coin in the beginning and than one was made there. -/
theorem namings_within_makings (coins : CoinMap) (blocks : List Block) (n : Nat)
    (point : OutPoint) :
    ((((ledger coins).acceptedTxs blocks).take n).flatMap (·.prevouts)).count point
        + (((ledger coins).viewAfter blocks n).hasCoin point).toNat
      ≤ ((ledger coins).hasCoin point).toNat
        + ((((ledger coins).acceptedTxs blocks).take n).flatMap (·.made)).count point := by
  have hp := process_take (process_acceptedTxs coins blocks).1 n
  have hk : ∀ tx ∈ ((ledger coins).acceptedTxs blocks).take n, tx.check = .valid :=
    fun _ hm => check_of_mem_acceptedTxs (List.mem_of_mem_take hm)
  have hv : ((ledger coins).viewAfter blocks n).hasCoin point
      = CoinView.hasCoin ((((ledger coins).acceptedTxs blocks).take n).foldl update (ledger coins))
        point := by
    rw [hasCoin, agree_viewAfter coins blocks n point, hasCoin]
  rw [hv]
  exact count_process_le hk hp point

end CoinLedger
