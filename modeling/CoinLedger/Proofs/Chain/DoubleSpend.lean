import Mathlib.Data.List.Nodup
import CoinLedger.Block.Mining
import CoinLedger.Proofs.Chain.History
import CoinLedger.Proofs.Encoding.Leading

/-! Double spends over a run of blocks. Nothing keeps a coinbase from being the copy of an earlier
one; it then puts a coin where one was spent before. This is the only way in which a place comes to
be named twice: a copy of a spend has to name again what the first one named, so that the earliest
place named twice was filled by coinbases both times. -/
namespace CoinLedger
open CoinView

/-- Transactions of one name have one byte form. -/
def NoCollision (txs : List Transaction) : Prop :=
  ∀ t ∈ txs, ∀ u ∈ txs, t.id = u.id → t.encode = u.encode

/-- The coin of a coinbase is spent, a coinbase puts a coin at its place again, and that one is spent
too. -/
def Respent (txs : List Transaction) (point : OutPoint) : Prop :=
  ∃ (m i k j : Nat) (b t c u : Transaction), m < i ∧ i < k ∧ k < j
    ∧ txs[m]? = some b ∧ b.isCoinbase = true ∧ point ∈ b.made
    ∧ txs[i]? = some t ∧ point ∈ t.prevouts
    ∧ txs[k]? = some c ∧ c.isCoinbase = true ∧ point ∈ c.made
    ∧ txs[j]? = some u ∧ point ∈ u.prevouts

/-- Two spends of one byte form name a place in common. -/
theorem exists_common_prevout {t u : Transaction} (ht : t.check = .valid) (hu : u.check = .valid)
    (hc : t.isCoinbase = false) (he : t.encode = u.encode) :
    ∃ point, point ∈ t.prevouts ∧ point ∈ u.prevouts := by
  obtain ⟨a, ha⟩ := Transaction.head?_prevouts_of_check ht hc
  obtain ⟨b, hb⟩ := Transaction.head?_prevouts_of_check hu
    (by rw [← Transaction.isCoinbase_eq_of_encode_eq he, hc])
  have hab := Transaction.head_prevouts_eq_of_encode_eq he ha hb
  refine ⟨a, List.mem_of_head? ha, ?_⟩
  rw [hab]
  exact List.mem_of_head? hb

section Run
variable {txs : List Transaction} {done : CoinView} {point : OutPoint} {t u : Transaction}
variable {i j : Nat}

theorem NoCollision.encode_eq (hn : NoCollision txs) (hi : txs[i]? = some t)
    (hj : txs[j]? = some u) (ht : point ∈ t.made) (hu : point ∈ u.made) :
    t.encode = u.encode := by
  apply hn t (List.mem_of_getElem? hi) u (List.mem_of_getElem? hj)
  rw [← Transaction.txid_of_mem_made ht, ← Transaction.txid_of_mem_made hu]

theorem respent_of_named_twice (hp : empty.process txs = .ok done)
    (hc : ∀ tx ∈ txs, tx.check = .valid) (hn : NoCollision txs) (hij : i < j)
    (hi : txs[i]? = some t) (hj : txs[j]? = some u) (ht : point ∈ t.prevouts)
    (hu : point ∈ u.prevouts) : ∃ place, Respent txs place := by
  -- on the position of the earlier naming: whoever filled the place for it stands before it
  induction i using Nat.strongRecOn generalizing j t u point with
  | ind i ih =>
    obtain ⟨m, first, hmi, hm, hf, _⟩ := maker_of_mem_prevouts hp hi ht
    obtain ⟨k, again, hkj, hk, ha, hidle⟩ := maker_of_mem_prevouts hp hj hu
    have hik : i ≤ k := by
      by_contra hlt
      exact hidle i t (by omega) hij hi ht
    have he := hn.encode_eq hm hk hf ha
    have hb := Transaction.isCoinbase_eq_of_encode_eq he
    cases hcb : again.isCoinbase with
    | true =>
      have hne : i ≠ k := by
        rintro rfl
        rw [hi, Option.some.injEq] at hk
        rw [hk, Transaction.prevouts_of_isCoinbase hcb] at ht
        cases ht
      exact ⟨point, m, i, k, j, first, t, again, u, hmi, by omega, hkj, hm, by rw [hb, hcb], hf,
        hi, ht, hk, hcb, ha, hj, hu⟩
    | false =>
      have hcf := hc first (List.mem_of_getElem? hm)
      have hca := hc again (List.mem_of_getElem? hk)
      obtain ⟨place, hl, hr⟩ := exists_common_prevout hcf hca (by rw [hb, hcb]) he
      exact ih m hmi (by omega) hm hk hl hr

theorem nodup_prevouts_iff (hc : ∀ tx ∈ txs, tx.check = .valid) :
    (txs.flatMap (·.prevouts)).Nodup ↔ ∀ (i j : Nat) (t u : Transaction), i < j →
      txs[i]? = some t → txs[j]? = some u → ∀ point ∈ t.prevouts, point ∉ u.prevouts := by
  have hs : ∀ tx ∈ txs, tx.prevouts.Nodup := fun tx hm =>
    Transaction.nodup_prevouts_of_check (hc tx hm)
  rw [List.nodup_flatMap, List.pairwise_iff_getElem]
  constructor
  · rintro ⟨_, hd⟩ i j t u hij hi hj point ht hu
    obtain ⟨hli, rfl⟩ := List.getElem?_eq_some_iff.mp hi
    obtain ⟨hlj, rfl⟩ := List.getElem?_eq_some_iff.mp hj
    exact hd i j hli hlj hij ht hu
  · intro h
    refine ⟨hs, ?_⟩
    intro i j hli hlj hij point ht hu
    exact h i j _ _ hij (List.getElem?_eq_getElem hli) (List.getElem?_eq_getElem hlj) point ht hu

theorem not_respent_of_nodup (hd : ((txs.filter (·.isCoinbase)).map (·.id)).Nodup) :
    ¬Respent txs point := by
  rw [List.Nodup, List.pairwise_map, List.pairwise_filter, List.pairwise_iff_getElem] at hd
  rintro ⟨m, i, k, j, b, t, c, u, hmi, hik, _, hm, hb, hmb, _, _, hk, hc, hmc, _⟩
  obtain ⟨hlm, rfl⟩ := List.getElem?_eq_some_iff.mp hm
  obtain ⟨hlk, rfl⟩ := List.getElem?_eq_some_iff.mp hk
  apply hd m k hlm hlk (by omega) hb hc
  rw [← Transaction.txid_of_mem_made hmb, ← Transaction.txid_of_mem_made hmc]

end Run

/-- A run from nothing names no place twice, except after a coinbase that puts its coin where one of
another coinbase was spent; so none at all if the coinbases have names of their own. -/
theorem nodup_prevouts_iff_not_respent (blocks : List Block)
    (hn : NoCollision (empty.acceptedTxs blocks)) :
    (((empty.acceptedTxs blocks).flatMap (·.prevouts)).Nodup
        ↔ ∀ point, ¬Respent (empty.acceptedTxs blocks) point)
      ∧ ((((empty.acceptedTxs blocks).filter (·.isCoinbase)).map (·.id)).Nodup →
        ((empty.acceptedTxs blocks).flatMap (·.prevouts)).Nodup) := by
  have hp := (process_acceptedTxs ∅ blocks).1
  have hc : ∀ tx ∈ empty.acceptedTxs blocks, tx.check = .valid := fun tx hm =>
    check_of_mem_acceptedTxs hm
  have hr : ((empty.acceptedTxs blocks).flatMap (·.prevouts)).Nodup
      ↔ ∀ point, ¬Respent (empty.acceptedTxs blocks) point := by
    rw [nodup_prevouts_iff hc]
    constructor
    · rintro h point ⟨m, i, k, j, b, t, c, u, _, hik, hkj, _, _, _, hi, ht, _, _, _, hj, hu⟩
      exact h i j t u (by omega) hi hj point ht hu
    · intro h i j t u hij hi hj point ht hu
      obtain ⟨place, hs⟩ := respent_of_named_twice hp hc hn hij hi hj ht hu
      exact h place hs
  exact ⟨hr, fun hd => hr.mpr fun point => not_respent_of_nodup hd⟩

/-- The spend of the first coin of a transaction, for as much as it is worth. -/
def passOn (tx : Transaction) : Transaction :=
  .spend [⟨⟨tx.id, 0⟩, ⟨[], [1]⟩⟩] tx.outputs

/-- A block with a reward of 50 to nobody in particular, and one that passes on a reward of 49. -/
def rewardsApart : List Block :=
  [Block.assemble [] 50 [] (sha256 []) 0,
    Block.assemble [] 49 [passOn (rewardCoinbase [] 49)] (sha256 []) 0]

theorem rewardsApart_nodup :
    empty.accepted rewardsApart = rewardsApart
      ∧ ((empty.acceptedTxs rewardsApart).flatMap (·.prevouts)).Nodup := by
  have hb : empty.accepted rewardsApart = rewardsApart := by decide +kernel
  have ha : empty.acceptedTxs rewardsApart
      = [rewardCoinbase [] 50, rewardCoinbase [] 49, passOn (rewardCoinbase [] 49)] := by
    rw [acceptedTxs, hb]
    rfl
  have hn : NoCollision (empty.acceptedTxs rewardsApart) := by
    rw [ha, NoCollision]
    decide +kernel
  refine ⟨hb, (nodup_prevouts_iff_not_respent rewardsApart hn).2 ?_⟩
  rw [ha]
  decide +kernel

/-- The reward of 50 twice. In the second block it is passed on a second time, and what it was
passed on to is spent before that and after. -/
def copiedReward : List Block :=
  let once := passOn (rewardCoinbase [] 50)
  [Block.assemble [] 50 [once] (sha256 []) 0,
    Block.assemble [] 50 [passOn once, once, passOn once] (sha256 []) 0]

theorem copiedReward_spent_twice :
    empty.accepted copiedReward = copiedReward ∧ NoCollision (empty.acceptedTxs copiedReward)
      ∧ ¬((empty.acceptedTxs copiedReward).flatMap (·.prevouts)).Nodup := by
  have hb : empty.accepted copiedReward = copiedReward := by decide +kernel
  rw [acceptedTxs, hb]
  refine ⟨rfl, ?_, ?_⟩
  · rw [NoCollision]
    decide +kernel
  · decide +kernel

end CoinLedger
