import CoinLedger.Proofs.Chain.Run
import CoinLedger.Proofs.Value.Accounting

/-! The money supply over a run of blocks. All money comes from the coinbases of the accepted blocks,
and what is paid in fees or put under other coins is gone for good. The rules bound what one coinbase
makes, and nothing bounds what all of them make together; so the supply stays within the money range
as long as they do, and in any case within as many times its top as there are accepted blocks. -/
namespace CoinLedger
open CoinView

/-- What the coins are worth together that blocks leave on the empty ledger. -/
def supplyAfter (blocks : List Block) : Int := CoinMap.worth (empty.connectAll blocks).base

/-- What the coinbases of the accepted blocks make. -/
def mintedBy (blocks : List Block) : Int := ((empty.acceptedTxs blocks).map (·.minted)).sum

/-- The fees of the accepted transactions, each against what the ones before it left. -/
def feesOf (blocks : List Block) : Int := empty.fees (empty.acceptedTxs blocks)

/-- What the coins were worth that accepted transactions put others in the place of. -/
def lostBy (blocks : List Block) : Int := empty.lost (empty.acceptedTxs blocks)

theorem range_minted {tx : Transaction} (hk : tx.check = .valid) :
    0 ≤ tx.minted ∧ tx.minted ≤ maxMoney.toInt := by
  rw [Transaction.minted]
  cases tx.isCoinbase with
  | true =>
    obtain ⟨sum, hs⟩ := Transaction.valueOut_of_check hk
    rw [if_pos rfl, ← toInt_valueOut hs]
    exact range_valueOut hs
  | false =>
    simp only [Bool.false_eq_true, if_false]
    decide

theorem sum_minted_nonneg {txs : List Transaction} (hk : ∀ tx ∈ txs, tx.check = .valid) :
    0 ≤ (txs.map (·.minted)).sum := by
  induction txs with
  | nil => decide
  | cons tx rest ih =>
    obtain ⟨ht, hr⟩ := List.forall_mem_cons.mp hk
    have hm := (range_minted ht).1
    have hs := ih hr
    rw [List.map_cons, List.sum_cons]
    omega

/-- A sound block makes no more money than its coinbase may. -/
theorem sum_minted_block_le {block : Block} (hb : block.check = .valid) :
    (block.transactions.map (·.minted)).sum ≤ maxMoney.toInt := by
  obtain ⟨_, hc, ht⟩ := Block.check_eq_valid_iff.mp hb
  obtain ⟨outputs, rest, he, hn⟩ := checkCoinbase_eq_valid_iff.mp hc
  have hk := checkTransactions_eq_valid_iff.mp ht (.coinbase outputs) (by simp [he])
  rw [he, sum_minted hn]
  exact (range_minted hk).2

theorem sum_minted_blocks_le {blocks : List Block} (hb : ∀ block ∈ blocks, block.check = .valid) :
    ((blocks.flatMap (·.transactions)).map (·.minted)).sum ≤ blocks.length * maxMoney.toInt := by
  induction blocks with
  | nil => simp
  | cons block rest ih =>
    obtain ⟨hf, hr⟩ := List.forall_mem_cons.mp hb
    have hblock := sum_minted_block_le hf
    have hrest := ih hr
    rw [List.flatMap_cons, List.map_append, List.sum_append, List.length_cons, Nat.cast_succ,
      Int.add_mul]
    omega

theorem inRange_empty : empty.InRange := by
  intro point coin hc
  cases hc

section Run
variable (blocks : List Block)

theorem supplyAfter_eq : supplyAfter blocks = mintedBy blocks - feesOf blocks - lostBy blocks := by
  obtain ⟨coins, hl⟩ := connectAll_ledger ∅ blocks
  have hp := (process_acceptedTxs ∅ blocks).1
  rw [hl] at hp
  have hw := worth_process (fun tx hm => check_of_mem_acceptedTxs hm) hp
  have h0 : CoinMap.worth ∅ = 0 := by decide
  rw [h0, Int.zero_add] at hw
  have hs : supplyAfter blocks = coins.worth := by
    rw [supplyAfter, empty, hl, base]
  rw [hs]
  exact hw

theorem feesOf_nonneg : 0 ≤ feesOf blocks := empty.fees_nonneg _

theorem lostBy_nonneg : 0 ≤ lostBy blocks :=
  lost_nonneg inRange_empty fun _ hm => check_of_mem_acceptedTxs hm

theorem mintedBy_le : mintedBy blocks ≤ (empty.accepted blocks).length * maxMoney.toInt :=
  sum_minted_blocks_le (process_acceptedTxs ∅ blocks).2

theorem mintedBy_take_le (n : Nat) : mintedBy (blocks.take n) ≤ mintedBy blocks := by
  have ha := acceptedTxs_append empty (blocks.take n) (blocks.drop n)
  rw [List.take_append_drop] at ha
  have hk : ∀ tx ∈ (empty.connectAll (blocks.take n)).acceptedTxs (blocks.drop n),
      tx.check = .valid := by
    intro tx hm
    have hall : tx ∈ empty.acceptedTxs blocks := by
      rw [ha]
      exact List.mem_append_right _ hm
    exact check_of_mem_acceptedTxs hall
  have h0 := sum_minted_nonneg hk
  rw [mintedBy, mintedBy, ha, List.map_append, List.sum_append]
  omega

end Run

/-- The supply that any sequence of blocks leaves is what the coinbases of the accepted blocks made,
less all fees and all coins that others were put in the place of, and no more than the top of the
money range for each accepted block. If the coinbases make no more than that top in all, the supply
is within it after every block. -/
theorem supply_of_run (blocks : List Block) :
    supplyAfter blocks = mintedBy blocks - feesOf blocks - lostBy blocks
      ∧ 0 ≤ feesOf blocks ∧ 0 ≤ lostBy blocks
      ∧ supplyAfter blocks ≤ (empty.accepted blocks).length * maxMoney.toInt
      ∧ ((∀ n, supplyAfter (blocks.take n) ≤ maxMoney.toInt) ↔ ∀ n, mintedBy (blocks.take n)
        ≤ maxMoney.toInt + feesOf (blocks.take n) + lostBy (blocks.take n))
      ∧ (mintedBy blocks ≤ maxMoney.toInt →
        ∀ n, supplyAfter (blocks.take n) ≤ maxMoney.toInt) := by
  have he := supplyAfter_eq blocks
  have hf := feesOf_nonneg blocks
  have hl := lostBy_nonneg blocks
  have hm := mintedBy_le blocks
  refine ⟨he, hf, hl, by omega, ?_, ?_⟩
  · apply forall_congr'
    intro n
    have hn := supplyAfter_eq (blocks.take n)
    omega
  · intro htop n
    have hn := supplyAfter_eq (blocks.take n)
    have hfn := feesOf_nonneg (blocks.take n)
    have hln := lostBy_nonneg (blocks.take n)
    have ht := mintedBy_take_le blocks n
    omega

/-- Two rewards that make up the whole money range, the first one passed on with a fee. -/
def wholeRange : List Block :=
  [Block.assemble [] 9999950 [] (sha256 []) 0,
    Block.assemble [] 50 [.spend [⟨⟨(rewardCoinbase [] 9999950).id, 0⟩, ⟨[], [1]⟩⟩] [⟨9999943, []⟩]]
      (sha256 []) 0]

theorem wholeRange_supply :
    empty.accepted wholeRange = wholeRange ∧ mintedBy wholeRange = maxMoney.toInt
      ∧ feesOf wholeRange = 7 ∧ supplyAfter wholeRange = maxMoney.toInt - 7
      ∧ ∀ n, supplyAfter (wholeRange.take n) ≤ maxMoney.toInt := by
  have hb : empty.accepted wholeRange = wholeRange := by decide +kernel
  have hm : mintedBy wholeRange = maxMoney.toInt := by
    rw [mintedBy, acceptedTxs, hb]
    decide +kernel
  have hf : feesOf wholeRange = 7 := by
    rw [feesOf, acceptedTxs, hb]
    decide +kernel
  have hl : lostBy wholeRange = 0 := by
    rw [lostBy, acceptedTxs, hb]
    decide +kernel
  obtain ⟨he, _, _, _, _, hstays⟩ := supply_of_run wholeRange
  rw [hm, hf, hl, Int.sub_zero] at he
  exact ⟨hb, hm, hf, he, hstays (Int.le_of_eq hm)⟩

/-- Two different rewards, each of the whole money range. -/
def wholeRangeTwice : List Block :=
  let first := Block.assemble [] maxMoney [] (sha256 []) 0
  [first, Block.assemble [.dup] maxMoney [] first.header.hash 1]

theorem wholeRangeTwice_exceeds :
    empty.accepted wholeRangeTwice = wholeRangeTwice
      ∧ supplyAfter wholeRangeTwice = 2 * maxMoney.toInt
      ∧ ¬supplyAfter wholeRangeTwice ≤ maxMoney.toInt := by
  have hs : supplyAfter wholeRangeTwice = 2 * maxMoney.toInt := by decide +kernel
  refine ⟨by decide +kernel, hs, ?_⟩
  rw [hs]
  decide

end CoinLedger
