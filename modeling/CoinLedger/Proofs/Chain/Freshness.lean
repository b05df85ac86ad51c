import CoinLedger.Proofs.Chain.Counting
import CoinLedger.Proofs.Chain.DoubleSpend
import CoinLedger.Proofs.Chain.Provenance
import CoinLedger.Proofs.View.Covered

/-! Whether the outputs of an accepted block are new coins. A coin is put over one that is still
visible exactly where an earlier transaction of the run made it and none has named it since, and the
two then have one name. A spend of one name with an earlier one spends again what that one spent; so
if the coinbases of a run have names of their own, all its transactions do, and every coin is put at
a free place: on the overlay that a block is worked through on, and in the ledger at the commit. -/
namespace CoinLedger
open CoinView

/-- Some transaction put a coin at the place, and none after it has named the place. -/
def Stands (txs : List Transaction) (point : OutPoint) : Prop :=
  ∃ (m : Nat) (maker : Transaction), txs[m]? = some maker ∧ point ∈ maker.made
    ∧ ∀ (j : Nat) (tx : Transaction), m < j → txs[j]? = some tx → point ∉ tx.prevouts

namespace CoinView

theorem hasCoin_foldl_of_unnamed {view : CoinView} {txs : List Transaction} {point : OutPoint}
    (h : view.hasCoin point = true) (hn : ∀ tx ∈ txs, point ∉ tx.prevouts) :
    (txs.foldl update view).hasCoin point = true := by
  induction txs generalizing view with
  | nil => exact h
  | cons tx rest ih =>
    obtain ⟨ht, hr⟩ := List.forall_mem_cons.mp hn
    exact ih ((hasCoin_update_iff view tx point).mpr (Or.inr ⟨ht, h⟩)) hr

/-- What is visible after transactions on nothing is what stands of what they made. -/
theorem hasCoin_foldl_empty_iff (txs : List Transaction) (point : OutPoint) :
    (txs.foldl update empty).hasCoin point = true ↔ Stands txs point := by
  constructor
  · intro h
    obtain ⟨coin, hc⟩ := Option.isSome_iff_exists.mp h
    cases origin_of_coin? hc with
    | inl hl =>
      rw [coin?_empty] at hl
      cases hl.1
    | inr hr =>
      obtain ⟨m, maker, hm, hmade, hn⟩ := hr
      exact ⟨m, maker, hm, Transaction.mem_made hmade, hn⟩
  · rintro ⟨m, maker, hm, hmade, hn⟩
    obtain ⟨hlt, rfl⟩ := List.getElem?_eq_some_iff.mp hm
    have hlater : ∀ tx ∈ txs.drop (m + 1), point ∉ tx.prevouts := by
      intro tx ht
      obtain ⟨j, hj⟩ := List.mem_iff_getElem?.mp ht
      rw [List.getElem?_drop] at hj
      exact hn (m + 1 + j) tx (by omega) hj
    have hmaker := (hasCoin_update_iff ((txs.take m).foldl update empty) txs[m] point).mpr
      (Or.inl hmade)
    rw [← List.take_append_drop m txs, List.drop_eq_getElem_cons hlt, List.foldl_append,
      List.foldl_cons]
    exact hasCoin_foldl_of_unnamed hmaker hlater

/-- Transactions cover nothing if each of them finds its places free, apart from those that it frees
itself. -/
theorem coveredBy_eq_nil_iff {view : CoinView} {txs : List Transaction}
    (ho : ∀ tx ∈ txs, tx.outputs.length ≤ UInt32.size) :
    view.coveredBy txs = [] ↔ ∀ (i : Nat) (tx : Transaction), txs[i]? = some tx →
      ∀ point ∈ tx.made, point ∉ tx.prevouts →
        ((txs.take i).foldl update view).hasCoin point = false := by
  induction txs generalizing view with
  | nil => simp [coveredBy]
  | cons tx rest ih =>
    obtain ⟨hl, hr⟩ := List.forall_mem_cons.mp ho
    have hfirst : (tx.prevouts.foldl spendCoin view).covered tx.created = []
        ↔ ∀ point ∈ tx.made, point ∉ tx.prevouts → view.hasCoin point = false := by
      rw [covered_eq_nil_iff (Transaction.pairwise_created hl), Transaction.made,
        List.forall_mem_map]
      apply forall₂_congr
      intro entry hm
      rw [hasCoin, coin?_spendCoins]
      by_cases hp : entry.1 ∈ tx.prevouts <;> simp [hp, spent_of_mem_created hm, hasCoin]
    rw [coveredBy, List.append_eq_nil_iff, hfirst, ih hr]
    constructor
    · rintro ⟨h0, hs⟩ i other hi
      cases i with
      | zero =>
        cases hi
        exact h0
      | succ i => exact hs i other hi
    · intro h
      exact ⟨h 0 tx rfl, fun i other hi => h (i + 1) other hi⟩

theorem changes_spendCoin {view : CoinView} {place point : OutPoint} {coin : Coin}
    (h : (view.spendCoin place).changes[point]? = some coin) (hs : coin.spent = false) :
    view.changes[point]? = some coin := by
  cases view with
  | ledger coins => exact h
  | overlay parent changes =>
    rw [spendCoin] at h
    cases hc : (overlay parent changes).coin? place with
    | none => rwa [hc] at h
    | some found =>
      simp only [hc, CoinView.changes, Std.ExtTreeMap.getElem?_insert] at h
      split at h
      · cases h
        cases hs
      · exact h

theorem changes_foldl_spendCoin {view : CoinView} {places : List OutPoint} {point : OutPoint}
    {coin : Coin} (h : (places.foldl spendCoin view).changes[point]? = some coin)
    (hs : coin.spent = false) : view.changes[point]? = some coin := by
  induction places generalizing view with
  | nil => exact h
  | cons place rest ih => exact changes_spendCoin (ih h) hs

theorem changes_foldl_addCoin {view : CoinView} {entries : List (OutPoint × Coin)}
    {point : OutPoint} {coin : Coin}
    (h : (entries.foldl (fun view entry => view.addCoin entry.1 entry.2) view).changes[point]?
      = some coin) :
    (∃ entry ∈ entries, entry.1 = point) ∨ view.changes[point]? = some coin := by
  induction entries generalizing view with
  | nil => exact Or.inr h
  | cons entry rest ih =>
    cases ih h with
    | inl hr =>
      obtain ⟨other, hm, he⟩ := hr
      exact Or.inl ⟨other, List.mem_cons_of_mem entry hm, he⟩
    | inr hv =>
      cases view with
      | ledger coins => exact Or.inr hv
      | overlay parent changes =>
        by_cases hp : entry.1 = point
        · exact Or.inl ⟨entry, List.mem_cons_self, hp⟩
        · right
          simpa [addCoin, CoinView.changes, Std.ExtTreeMap.getElem?_insert, hp] using hv

/-- A change of an overlay that is not a mark of a spent coin is the work of a transaction. -/
theorem made_of_changes {view done : CoinView} {txs : List Transaction}
    (h : view.process txs = .ok done) {point : OutPoint} {coin : Coin}
    (hc : done.changes[point]? = some coin) (hs : coin.spent = false) :
    (∃ tx ∈ txs, point ∈ tx.made) ∨ view.changes[point]? = some coin := by
  induction txs generalizing view with
  | nil =>
    cases h
    exact Or.inr hc
  | cons tx rest ih =>
    obtain ⟨_, hp⟩ := process_cons_iff.mp h
    cases ih hp with
    | inl hr =>
      obtain ⟨other, hm, hmade⟩ := hr
      exact Or.inl ⟨other, List.mem_cons_of_mem tx hm, hmade⟩
    | inr hu =>
      cases changes_foldl_addCoin hu with
      | inl ha =>
        obtain ⟨entry, hm, rfl⟩ := ha
        exact Or.inl ⟨tx, List.mem_cons_self, Transaction.mem_made hm⟩
      | inr hb => exact Or.inr (changes_foldl_spendCoin hb hs)

end CoinView

section Run
variable {txs : List Transaction} {done : CoinView} {point : OutPoint}

/-- If the coinbases of a run from nothing have names of their own, so have all its transactions. -/
theorem pairwise_ids (hp : empty.process txs = .ok done) (hc : ∀ tx ∈ txs, tx.check = .valid)
    (hn : NoCollision txs) (hd : ((txs.filter (·.isCoinbase)).map (·.id)).Nodup) :
    txs.Pairwise fun t u => t.id ≠ u.id := by
  have hb := hd
  rw [List.Nodup, List.pairwise_map, List.pairwise_filter, List.pairwise_iff_getElem] at hb
  rw [List.pairwise_iff_getElem]
  intro i j hi hj hij he
  have hti : txs[i] ∈ txs := List.getElem_mem hi
  have htj : txs[j] ∈ txs := List.getElem_mem hj
  have hform := hn _ hti _ htj he
  have hkind := Transaction.isCoinbase_eq_of_encode_eq hform
  cases hci : txs[i].isCoinbase with
  | true => exact hb i j hi hj hij hci (by rw [← hkind, hci]) he
  | false =>
    obtain ⟨place, hl, hr⟩ := exists_common_prevout (hc _ hti) (hc _ htj) hci hform
    obtain ⟨again, hs⟩ := respent_of_named_twice hp hc hn hij (List.getElem?_eq_getElem hi)
      (List.getElem?_eq_getElem hj) hl hr
    exact not_respent_of_nodup hd hs

/-- Where names are not used twice, what a transaction makes does not stand before it. -/
theorem not_stands_of_pairwise {front : List Transaction} {tx : Transaction}
    (h : ∀ other ∈ front, other.id ≠ tx.id) (hm : point ∈ tx.made) : ¬Stands front point := by
  rintro ⟨m, maker, hk, hmade, _⟩
  apply h maker (List.mem_of_getElem? hk)
  rw [← Transaction.txid_of_mem_made hmade, ← Transaction.txid_of_mem_made hm]

end Run

/-- A run from nothing left the ledger `coins`; the block is worked through on an overlay that ends
as `done`, it is accepted, and `after` is left. -/
structure Follows (front : List Block) (block : Block) (coins : CoinMap) (done : CoinView)
    (after : CoinMap) : Prop where
  run_eq : empty.connectAll front = ledger coins
  overlay_eq : (ledger coins).layer.process block.transactions = .ok done
  connect_eq : (ledger coins).connect block = (.valid, ledger after)

theorem exists_follows {front : List Block} {block : Block}
    (h : ((empty.connectAll front).connect block).1 = .valid) :
    ∃ coins done after, Follows front block coins done after := by
  obtain ⟨coins, hl⟩ := connectAll_ledger ∅ front
  have hl : empty.connectAll front = ledger coins := hl
  rw [hl] at h
  have hv : (ledger coins).connect block = (.valid, ((ledger coins).connect block).2) :=
    Prod.ext h rfl
  obtain ⟨_, hp⟩ := connect_ledger_eq_valid_iff.mp hv
  obtain ⟨after, _, ha⟩ := ledger_of_process hp
  obtain ⟨done, hd, _⟩ := (Agree.refl (ledger coins)).layer.process_ok hp
  exact ⟨coins, done, after, hl, hd, by rw [hv, ha]⟩

namespace Follows
variable {front : List Block} {block : Block} {coins after : CoinMap} {done : CoinView}

theorem unspent (h : Follows front block coins done after) : coins.Unspent := by
  obtain ⟨found, hl, hu⟩ := unspent_connectAll front
  rw [h.run_eq] at hl
  cases hl
  exact hu

theorem process_eq (h : Follows front block coins done after) :
    (ledger coins).process block.transactions = .ok (ledger after) :=
  (connect_ledger_eq_valid_iff.mp h.connect_eq).2

theorem check_of_mem (h : Follows front block coins done after) :
    ∀ tx ∈ block.transactions, tx.check = .valid := by
  have hb := (connect_ledger_eq_valid_iff.mp h.connect_eq).1
  exact checkTransactions_eq_valid_iff.mp (Block.check_eq_valid_iff.mp hb).2.2

theorem acceptedTxs_eq (h : Follows front block coins done after) :
    empty.acceptedTxs (front ++ [block]) = empty.acceptedTxs front ++ block.transactions := by
  have hb : (ledger coins).acceptedTxs [block] = block.transactions := by
    rw [acceptedTxs, accepted, h.connect_eq]
    exact List.append_nil _
  rw [acceptedTxs_append, h.run_eq, hb]

theorem foldl_eq (h : Follows front block coins done after) :
    (empty.acceptedTxs front).foldl update empty = ledger coins := by
  rw [← h.run_eq]
  exact foldl_of_process (process_acceptedTxs ∅ front).1

theorem size_eq (h : Follows front block coins done after) :
    after.size + (block.transactions.flatMap (·.inputs)).length
        + ((ledger coins).layer.coveredBy block.transactions).length
      = coins.size + (block.transactions.flatMap (·.outputs)).length := by
  rw [coveredBy_layer]
  exact size_process h.unspent h.check_of_mem h.process_eq

theorem covers_nothing_iff (h : Follows front block coins done after)
    (ho : ∀ tx ∈ block.transactions, tx.outputs.length ≤ UInt32.size) :
    (ledger coins).layer.coveredBy block.transactions = []
      ↔ ∀ (i : Nat) (tx : Transaction), block.transactions[i]? = some tx →
        ∀ point ∈ tx.made, point ∉ tx.prevouts →
          ¬Stands (empty.acceptedTxs front ++ block.transactions.take i) point := by
  have hs : ∀ i point, ((block.transactions.take i).foldl update (ledger coins)).hasCoin point
      = false ↔ ¬Stands (empty.acceptedTxs front ++ block.transactions.take i) point := by
    intro i point
    rw [← hasCoin_foldl_empty_iff, List.foldl_append, h.foldl_eq, Bool.not_eq_true]
  rw [coveredBy_layer, coveredBy_eq_nil_iff ho]
  simp only [hs]

theorem pairwise_ids (h : Follows front block coins done after)
    (hn : NoCollision (empty.acceptedTxs (front ++ [block])))
    (hd : (((empty.acceptedTxs (front ++ [block])).filter (·.isCoinbase)).map (·.id)).Nodup) :
    (empty.acceptedTxs front ++ block.transactions).Pairwise fun t u => t.id ≠ u.id := by
  have hp : empty.process (empty.acceptedTxs (front ++ [block]))
      = .ok (empty.connectAll (front ++ [block])) := (process_acceptedTxs ∅ _).1
  rw [← h.acceptedTxs_eq]
  exact CoinLedger.pairwise_ids hp (fun tx hm => check_of_mem_acceptedTxs hm) hn hd

theorem covers_nothing (h : Follows front block coins done after)
    (ho : ∀ tx ∈ block.transactions, tx.outputs.length ≤ UInt32.size)
    (hi : (empty.acceptedTxs front ++ block.transactions).Pairwise fun t u => t.id ≠ u.id) :
    (ledger coins).layer.coveredBy block.transactions = [] := by
  apply (h.covers_nothing_iff ho).mpr
  intro i tx ht point hm _
  have hlater : tx ∈ block.transactions.drop i := by
    apply List.mem_of_getElem? (i := 0)
    rwa [List.getElem?_drop]
  rw [← List.take_append_drop i block.transactions, ← List.append_assoc] at hi
  have hne := (List.pairwise_append.mp hi).2.2
  exact not_stands_of_pairwise (fun other hmem => hne other hmem tx hlater) hm

theorem commit_covers_nothing (h : Follows front block coins done after)
    (hi : (empty.acceptedTxs front ++ block.transactions).Pairwise fun t u => t.id ≠ u.id)
    (listing : Listing) : (ledger coins).covered (listing.entries done.changes) = [] := by
  apply (covered_eq_nil_iff (listing.pairwise_entries _)).mpr
  rintro ⟨point, coin⟩ hm hs
  have hc := (listing.mem_entries _).mp hm
  cases made_of_changes h.overlay_eq hc hs with
  | inl hmade =>
    obtain ⟨tx, ht, hp⟩ := hmade
    have hne := (List.pairwise_append.mp hi).2.2
    have hstands := not_stands_of_pairwise (fun other hmem => hne other hmem tx ht) hp
    rw [← hasCoin_foldl_empty_iff, h.foldl_eq, Bool.not_eq_true] at hstands
    exact hstands
  | inr hold => simp [layer, CoinView.changes] at hold

end Follows

/-- What an accepted block does to the size of the ledger that a run from nothing left: it falls by
one for each input and rises by one for each output that covers no visible coin. None is covered
exactly if no transaction of the block makes a coin where one of an earlier transaction stands; and
so none is, on the overlay or at the commit in any order, if the coinbases of the run so far have
names of their own. -/
theorem size_and_freshness {front : List Block} {block : Block}
    (h : ((empty.connectAll front).connect block).1 = .valid)
    (ho : ∀ tx ∈ block.transactions, tx.outputs.length ≤ UInt32.size) :
    ∃ (coins : CoinMap) (done : CoinView) (after : CoinMap), Follows front block coins done after
      ∧ after.size + (block.transactions.flatMap (·.inputs)).length
          + ((ledger coins).layer.coveredBy block.transactions).length
        = coins.size + (block.transactions.flatMap (·.outputs)).length
      ∧ ((ledger coins).layer.coveredBy block.transactions = []
        ↔ ∀ (i : Nat) (tx : Transaction), block.transactions[i]? = some tx →
          ∀ point ∈ tx.made, point ∉ tx.prevouts →
            ¬Stands (empty.acceptedTxs front ++ block.transactions.take i) point)
      ∧ (NoCollision (empty.acceptedTxs (front ++ [block])) →
        (((empty.acceptedTxs (front ++ [block])).filter (·.isCoinbase)).map (·.id)).Nodup →
        (ledger coins).layer.coveredBy block.transactions = []
          ∧ (∀ listing : Listing, (ledger coins).covered (listing.entries done.changes) = [])
          ∧ after.size + (block.transactions.flatMap (·.inputs)).length
            = coins.size + (block.transactions.flatMap (·.outputs)).length) := by
  obtain ⟨coins, done, after, hf⟩ := exists_follows h
  refine ⟨coins, done, after, hf, hf.size_eq, hf.covers_nothing_iff ho, ?_⟩
  intro hn hd
  have hi := hf.pairwise_ids hn hd
  have hc := hf.covers_nothing ho hi
  have hs := hf.size_eq
  rw [hc, List.length_nil, Nat.add_zero] at hs
  exact ⟨hc, hf.commit_covers_nothing hi, hs⟩

/-- A block with a reward of 50 and nothing else. -/
def firstReward : Block := Block.assemble [] 50 [] (sha256 []) 0

/-- A block with another reward that passes the first one on, and that again. -/
def passedOnTwice : Block :=
  let once := passOn (rewardCoinbase [] 50)
  Block.assemble [] 49 [once, passOn once] (sha256 []) 0

theorem passedOnTwice_fresh :
    ((empty.connectAll [firstReward]).connect passedOnTwice).1 = .valid
      ∧ ∃ (coins : CoinMap) (done : CoinView) (after : CoinMap),
        Follows [firstReward] passedOnTwice coins done after
        ∧ (ledger coins).layer.coveredBy passedOnTwice.transactions = []
        ∧ after.size + 2 = coins.size + 3 := by
  have hv : ((empty.connectAll [firstReward]).connect passedOnTwice).1 = .valid := by
    decide +kernel
  have hb : empty.accepted ([firstReward] ++ [passedOnTwice]) = [firstReward, passedOnTwice] := by
    decide +kernel
  have hn : NoCollision (empty.acceptedTxs ([firstReward] ++ [passedOnTwice])) := by
    rw [acceptedTxs, hb, NoCollision]
    decide +kernel
  obtain ⟨coins, done, after, hf, _, _, hfresh⟩ := size_and_freshness hv (by decide +kernel)
  obtain ⟨hc, _, hs⟩ := hfresh hn (by rw [acceptedTxs, hb]; decide +kernel)
  exact ⟨hv, coins, done, after, hf, hc, hs⟩

/-- The next block, with the same reward to the same lock. -/
def sameReward : Block := Block.assemble [] 50 [] firstReward.header.hash 1

/-- The second coin is put over the first, and the ledger stays at one. -/
theorem sameReward_covers :
    ((empty.connectAll [firstReward]).connect sameReward).1 = .valid
      ∧ (∀ tx ∈ sameReward.transactions, tx.outputs.length ≤ UInt32.size)
      ∧ NoCollision (empty.acceptedTxs ([firstReward] ++ [sameReward]))
      ∧ (empty.connectAll [firstReward]).layer.coveredBy sameReward.transactions ≠ []
      ∧ ((empty.connectAll [firstReward]).connect sameReward).2.size
          + (sameReward.transactions.flatMap (·.inputs)).length
        ≠ (empty.connectAll [firstReward]).size
          + (sameReward.transactions.flatMap (·.outputs)).length := by
  have hb : empty.accepted ([firstReward] ++ [sameReward]) = [firstReward, sameReward] := by
    decide +kernel
  refine ⟨by decide +kernel, by decide +kernel, ?_, by decide +kernel, by decide +kernel⟩
  rw [acceptedTxs, hb, NoCollision]
  decide +kernel

end CoinLedger
