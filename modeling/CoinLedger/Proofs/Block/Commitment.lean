import Mathlib.Data.Fintype.EquivFin
import Mathlib.Logic.Relation
import Mathlib.Order.WellFounded
import CoinLedger.Block.Mining
import CoinLedger.Proofs.Block.Repetition
import CoinLedger.Proofs.Chain.History
import CoinLedger.Proofs.Encoding.SelfDelimiting

/-! A header and the list of transactions that it stands for. Of two lists with one root, one repeats
a segment; and a block that repeats a segment is not accepted. For the second copy names again what
the first one named, so that each of its transactions draws on one of the segment, and this leads
around in a cycle. -/
namespace CoinLedger
open CoinView Relation

/-- A prevout of the transaction is an output of the maker. -/
def Transaction.DrawsOn (tx maker : Transaction) : Prop :=
  ∃ point ∈ tx.prevouts, point.txid = maker.id

instance (tx maker : Transaction) : Decidable (tx.DrawsOn maker) :=
  inferInstanceAs (Decidable (∃ point ∈ tx.prevouts, point.txid = maker.id))

/-- No transactions of the list draw on one another in a cycle. -/
def Acyclic (txs : List Transaction) : Prop :=
  ∀ tx, ¬TransGen (fun t u => t ∈ txs ∧ u ∈ txs ∧ t.DrawsOn u) tx tx

/-- The byte strings that are hashed for the root of a block. -/
def Block.preimages (block : Block) : List Bytes :=
  block.transactions.map (·.encode) ++ merklePreimages (block.transactions.map (·.leaf))

theorem acyclic_of_rank {txs : List Transaction} (rank : Transaction → Nat)
    (h : ∀ t ∈ txs, ∀ u ∈ txs, t.DrawsOn u → rank u < rank t) : Acyclic txs := by
  have hr : ∀ {t u}, TransGen (fun t u => t ∈ txs ∧ u ∈ txs ∧ t.DrawsOn u) t u →
      rank u < rank t := by
    intro t u ht
    induction ht with
    | single hs => exact h _ hs.1 _ hs.2.1 hs.2.2
    | tail _ hs ih => exact Nat.lt_trans (h _ hs.1 _ hs.2.1 hs.2.2) ih
  intro tx ht
  exact Nat.lt_irrefl _ (hr ht)

/-- Finitely many transactions that all draw on one another do so in a cycle. -/
theorem not_acyclic_of_drawsOn {txs segment : List Transaction} (hs : segment ≠ [])
    (hm : ∀ tx ∈ segment, tx ∈ txs) (hd : ∀ t ∈ segment, ∃ u ∈ segment, t.DrawsOn u) :
    ¬Acyclic txs := by
  intro ha
  let after : {tx // tx ∈ segment} → {tx // tx ∈ segment} → Prop := fun u t =>
    TransGen (fun t u => t ∈ txs ∧ u ∈ txs ∧ t.DrawsOn u) t.1 u.1
  have hfinite : Finite {tx // tx ∈ segment} := inferInstance
  have htrans : IsTrans _ after := ⟨fun _ _ _ hab hbc => hbc.trans hab⟩
  have hirrefl : Std.Irrefl after := ⟨fun t => ha t.1⟩
  have hwf : WellFounded after := Finite.wellFounded_of_trans_of_irrefl after
  obtain ⟨first, hfirst⟩ := List.exists_mem_of_ne_nil segment hs
  obtain ⟨⟨t, ht⟩, _, hlast⟩ := hwf.has_min Set.univ ⟨⟨first, hfirst⟩, trivial⟩
  obtain ⟨u, hu, htu⟩ := hd t ht
  exact hlast ⟨u, hu⟩ trivial (TransGen.single ⟨hm t ht, hm u hu, htu⟩)

section Segment
variable {view done : CoinView} {front segment back : List Transaction}

theorem getElem?_first_copy {r : Nat} {t : Transaction} (h : segment[r]? = some t) :
    (front ++ (segment ++ (segment ++ back)))[front.length + r]? = some t := by
  have hr : r < segment.length := (List.getElem?_eq_some_iff.mp h).1
  rw [List.getElem?_append_right (by omega), Nat.add_sub_cancel_left,
    List.getElem?_append_left hr, h]

theorem getElem?_second_copy {r : Nat} {t : Transaction} (h : segment[r]? = some t) :
    (front ++ (segment ++ (segment ++ back)))[front.length + (segment.length + r)]? = some t := by
  have hr : r < segment.length := (List.getElem?_eq_some_iff.mp h).1
  rw [List.getElem?_append_right (by omega), Nat.add_sub_cancel_left,
    List.getElem?_append_right (by omega), Nat.add_sub_cancel_left,
    List.getElem?_append_left hr, h]

/-- What stands between a transaction of the first copy and the same one of the second. -/
theorem mem_segment_of_between {r k : Nat} {maker : Transaction} (hl : front.length + r ≤ k)
    (hr : r < segment.length) (hk : k < front.length + (segment.length + r))
    (hm : (front ++ (segment ++ (segment ++ back)))[k]? = some maker) : maker ∈ segment := by
  rw [List.getElem?_append_right (by omega)] at hm
  by_cases hfirst : k - front.length < segment.length
  · rw [List.getElem?_append_left hfirst] at hm
    exact List.mem_of_getElem? hm
  · rw [List.getElem?_append_right (by omega), List.getElem?_append_left (by omega)] at hm
    exact List.mem_of_getElem? hm

/-- The second copy of a transaction names what only the segment can have made again. -/
theorem drawsOn_segment (h : view.process (front ++ (segment ++ (segment ++ back))) = .ok done)
    {t : Transaction} (ht : t ∈ segment) {point : OutPoint} (hp : point ∈ t.prevouts) :
    ∃ u ∈ segment, t.DrawsOn u := by
  obtain ⟨r, hr⟩ := List.mem_iff_getElem?.mp ht
  have hlt : r < segment.length := (List.getElem?_eq_some_iff.mp hr).1
  obtain ⟨k, maker, hik, hkj, hk, hmade⟩ :=
    maker_between h (by omega) (getElem?_first_copy hr) (getElem?_second_copy hr) hp hp
  have hm : maker ∈ segment := mem_segment_of_between hik hlt hkj hk
  exact ⟨maker, hm, point, hp, Transaction.txid_of_mem_made hmade⟩

end Segment

theorem isCoinbase_of_second_copy {front segment back : List Transaction}
    (h : checkCoinbase (front ++ (segment ++ (segment ++ back))) = .valid) {t : Transaction}
    (ht : t ∈ segment) : t.isCoinbase = false := by
  obtain ⟨outputs, rest, he, hc⟩ := checkCoinbase_eq_valid_iff.mp h
  obtain ⟨r, hr⟩ := List.mem_iff_getElem?.mp ht
  have hlt : r < segment.length := (List.getElem?_eq_some_iff.mp hr).1
  have hj : (front ++ (segment ++ (segment ++ back)))[front.length + (segment.length + r)]?
      = some t := getElem?_second_copy hr
  obtain ⟨j, hjs⟩ := Nat.exists_eq_succ_of_ne_zero
    (show front.length + (segment.length + r) ≠ 0 by omega)
  rw [he, hjs, List.getElem?_cons_succ] at hj
  exact hc t (List.mem_of_getElem? hj)

/-- No accepted block without a cycle repeats a segment. -/
theorem not_repeats_of_process {view done : CoinView} {block : Block}
    (hk : block.check = .valid) (h : view.process block.transactions = .ok done)
    (ha : Acyclic block.transactions) : ¬Repeats block.transactions := by
  rintro ⟨front, segment, back, hs, he⟩
  obtain ⟨_, hc, ht⟩ := Block.check_eq_valid_iff.mp hk
  rw [he] at hc h
  have hm : ∀ tx ∈ segment, tx ∈ block.transactions := by
    intro tx htx
    rw [he]
    simp [htx]
  apply not_acyclic_of_drawsOn hs hm _ ha
  intro t hts
  have hvalid := checkTransactions_eq_valid_iff.mp ht t (hm t hts)
  have hspend := isCoinbase_of_second_copy hc hts
  obtain ⟨point, hp⟩ := Transaction.head?_prevouts_of_check hvalid hspend
  exact drawsOn_segment h hts (List.mem_of_head? hp)

theorem leaves_ne_nil {txs : List Transaction} {root : Hash} (h : transactionRoot? txs = some root) :
    txs.map (·.leaf) ≠ [] := by
  intro he
  rw [transactionRoot?, he, merkleRoot?] at h
  cases h

theorem leaf_inj_of_collisionFree {txs : List Transaction}
    (hs : CollisionFree (txs.map (·.encode))) (hf : ∀ tx ∈ txs, tx.Fits) :
    ∀ t ∈ txs, ∀ u ∈ txs, t.leaf = u.leaf → t = u := by
  intro t ht u hu h
  have he : t.encode = u.encode :=
    hs _ (List.mem_map_of_mem ht) _ (List.mem_map_of_mem hu) h
  exact Transaction.encode_inj (hf t ht) (hf u hu) he

/-- Two blocks with one header that a ledger both accepts have one list of transactions, if it takes
the same number of levels to their roots, digests do not collide, and there is no cycle. -/
theorem header_binds_transactions {coins : CoinMap} {a b : Block} (hh : a.header = b.header)
    (ha : ((ledger coins).connect a).1 = .valid) (hb : ((ledger coins).connect b).1 = .valid)
    (hd : Nat.clog 2 a.transactions.length = Nat.clog 2 b.transactions.length)
    (hf : ∀ tx ∈ a.transactions ++ b.transactions, tx.Fits)
    (hs : CollisionFree (a.preimages ++ b.preimages))
    (hca : Acyclic a.transactions) (hcb : Acyclic b.transactions) :
    a.transactions = b.transactions := by
  obtain ⟨hka, hpa⟩ := connect_ledger_eq_valid_iff.mp (Prod.ext ha rfl)
  obtain ⟨hkb, hpb⟩ := connect_ledger_eq_valid_iff.mp (Prod.ext hb rfl)
  have hra := (Block.check_eq_valid_iff.mp hka).1
  have hrb := (Block.check_eq_valid_iff.mp hkb).1
  have hroot : merkleRoot? (a.transactions.map (·.leaf))
      = merkleRoot? (b.transactions.map (·.leaf)) := by
    rw [← transactionRoot?, ← transactionRoot?, hra, hrb, hh]
  have hleaf : ∀ t ∈ a.transactions ++ b.transactions, ∀ u ∈ a.transactions ++ b.transactions,
      t.leaf = u.leaf → t = u := by
    apply leaf_inj_of_collisionFree _ hf
    apply hs.mono
    grind [Block.preimages]
  have hnodes : CollisionFree (merklePreimages (a.transactions.map (·.leaf))
      ++ merklePreimages (b.transactions.map (·.leaf))) := by
    apply hs.mono
    grind [Block.preimages]
  have hlen : Nat.clog 2 (a.transactions.map (·.leaf)).length
      = Nat.clog 2 (b.transactions.map (·.leaf)).length := by
    rw [List.length_map, List.length_map, hd]
  obtain heq | hrep | hrep :=
    eq_or_repeats_of_merkleRoot?_eq (leaves_ne_nil hra) (leaves_ne_nil hrb) hlen hnodes hroot
  · apply eq_of_map_eq _ heq
    intro t ht u hu
    exact hleaf t (List.mem_append_left _ ht) u (List.mem_append_right _ hu)
  · have hr : Repeats a.transactions := hrep.of_map fun t ht u hu =>
      hleaf t (List.mem_append_left _ ht) u (List.mem_append_left _ hu)
    exact absurd hr (not_repeats_of_process hka hpa hca)
  · have hr : Repeats b.transactions := hrep.of_map fun t ht u hu =>
      hleaf t (List.mem_append_right _ ht) u (List.mem_append_right _ hu)
    exact absurd hr (not_repeats_of_process hkb hpb hcb)

/-- The spend of the first coin of a transaction, or of what stands for one. -/
def payOn (txid : Hash) : Transaction :=
  .spend [⟨⟨txid, 0⟩, ⟨[], [1]⟩⟩] [⟨7, []⟩]

/-- A coin of seven, under no lock. -/
def sevenUnlocked : CoinMap :=
  (∅ : CoinMap).insert ⟨sha256 [1], 0⟩ ⟨⟨7, []⟩, false, false⟩

/-- A block in which the coin is spent and then what it was spent on. -/
def paidOnTwice : Block :=
  Block.assemble [] 50 [payOn (sha256 [1]), payOn (payOn (sha256 [1])).id] (sha256 []) 0

/-- With its last transaction once more the block would keep its root. -/
def paidOnAgain : Block :=
  { paidOnTwice with
    transactions := paidOnTwice.transactions ++ [payOn (payOn (sha256 [1])).id] }

theorem paidOnTwice_bound :
    (∃ other : Block, other.header = paidOnTwice.header
      ∧ ((ledger sevenUnlocked).connect other).1 = .valid
      ∧ other.transactions = paidOnTwice.transactions)
    ∧ transactionRoot? paidOnAgain.transactions = transactionRoot? paidOnTwice.transactions
    ∧ ((ledger sevenUnlocked).connect paidOnAgain).1 ≠ .valid := by
  have hv : ((ledger sevenUnlocked).connect paidOnTwice).1 = .valid := by decide +kernel
  have hone : 1 < UInt64.size := by decide
  have hpay : ∀ txid, (payOn txid).Fits := by
    intro txid
    simp [payOn, Transaction.Fits, ShortOf, Short, Input.Fits, Unlock.Fits, Output.Fits,
      Script.Fits, hone]
  have hf : ∀ tx ∈ paidOnAgain.transactions ++ paidOnTwice.transactions, tx.Fits := by
    have hreward : (rewardCoinbase [] 50).Fits := by
      simp [rewardCoinbase, Transaction.Fits, ShortOf, Short, Output.Fits, Script.Fits, hone]
    simp [paidOnAgain, paidOnTwice, Block.assemble, hreward, hpay]
  have hs : CollisionFree (paidOnAgain.preimages ++ paidOnTwice.preimages) := by
    rw [CollisionFree]
    decide +kernel
  have hr : ∀ t ∈ paidOnAgain.transactions, ∀ u ∈ paidOnAgain.transactions, t.DrawsOn u →
      paidOnAgain.transactions.idxOf u < paidOnAgain.transactions.idxOf t := by
    decide +kernel
  have hm : ∀ tx ∈ paidOnTwice.transactions, tx ∈ paidOnAgain.transactions := fun _ =>
    List.mem_append_left _
  have hagain : Acyclic paidOnAgain.transactions := acyclic_of_rank _ hr
  have htwice : Acyclic paidOnTwice.transactions :=
    acyclic_of_rank _ fun t ht u hu => hr t (hm t ht) u (hm u hu)
  refine ⟨⟨paidOnTwice, rfl, hv, ?_⟩, ?_, ?_⟩
  · apply header_binds_transactions rfl hv hv rfl _ _ htwice htwice
    · intro tx htx
      exact hf tx (by simp_all)
    · apply hs.mono
      intro string hstring
      exact List.mem_append_right _ (by simpa using hstring)
  · simp [paidOnAgain, paidOnTwice, Block.assemble, transactionRoot?, merkleRoot?, merkleLevel]
  · intro ha
    have he : paidOnAgain.transactions = paidOnTwice.transactions :=
      header_binds_transactions rfl ha hv (by decide) hf hs hagain htwice
    have hl := congrArg List.length he
    simp [paidOnAgain] at hl

end CoinLedger
