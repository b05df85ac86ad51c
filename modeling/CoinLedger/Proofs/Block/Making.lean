import CoinLedger.Node
import CoinLedger.Proofs.Block.Search
import CoinLedger.Proofs.Transaction.Structure

/-! Making, mining and checking go by the same limits. Settings are sound exactly if the blocks made
under them can be; a made block commits to its transactions and can fail for nothing but them; and
mining, found or not, touches the nonce alone, of which neither checking nor connecting takes
notice. -/
namespace CoinLedger

/-- The search for a nonce changes nothing else about a header. -/
theorem Header.search_frame (zeros attempts : Nat) (header : Header) :
    ∃ nonce, (header.search zeros attempts).2 = { header with nonce } := by
  obtain ⟨nonce, hs, _⟩ | ⟨nonce, hs, _⟩ := header.search_cases zeros attempts
  · exact ⟨nonce, by rw [hs]⟩
  · exact ⟨nonce, by rw [hs]⟩

namespace Block

theorem exists_mine_iff {block : Block} {zeros attempts : UInt64} :
    (∃ answer, block.mine zeros attempts = .ok answer) ↔ zeros ≤ 64 := by
  rw [mine, ← UInt64.not_lt]
  by_cases hz : 64 < zeros <;> simp [hz]

theorem mine_frame {block mined : Block} {zeros attempts : UInt64} {found : Bool}
    (h : block.mine zeros attempts = .ok (found, mined)) :
    ∃ nonce, mined = { block with header := { block.header with nonce } } := by
  rw [mine] at h
  split at h
  · cases h
  · obtain ⟨nonce, hn⟩ := block.header.search_frame zeros.toNat attempts.toNat
    cases h
    exact ⟨nonce, by rw [hn]⟩

theorem check_congr {a b : Block} (hr : a.header.root = b.header.root)
    (ht : a.transactions = b.transactions) : a.check = b.check := by
  rw [check, check, hr, ht]

theorem connect_congr {a b : Block} (hr : a.header.root = b.header.root)
    (ht : a.transactions = b.transactions) (view : CoinView) : view.connect a = view.connect b := by
  rw [CoinView.connect, CoinView.connect, check_congr hr ht, ht]

end Block

theorem rewardCoinbase_check_iff {lock : Script} {reward : Amount} :
    (rewardCoinbase lock reward).check = .valid ↔ WithinMoney reward.toInt := by
  rw [Transaction.check_eq_valid_iff_sound]
  constructor
  · intro h
    exact h.inRange _ List.mem_cons_self
  · intro h
    exact {
      source := Or.inl rfl
      target := List.cons_ne_nil _ _
      inRange := by simpa [rewardCoinbase, Transaction.outputs] using h
      total_le := by simpa [rewardCoinbase, Transaction.outputs] using h.2
      distinct := List.nodup_nil }

/-- The first transaction that breaks a rule gives the reason. -/
theorem checkTransactions_eq_invalid_iff {txs : List Transaction} {reason : RejectReason} :
    checkTransactions txs = .invalid reason ↔ ∃ front tx back, txs = front ++ tx :: back
      ∧ (∀ other ∈ front, other.check = .valid) ∧ tx.check = .invalid reason := by
  induction txs with
  | nil => simp [checkTransactions]
  | cons first rest ih =>
    rw [checkTransactions]
    cases hc : first.check with
    | invalid other =>
      constructor
      · intro h
        cases h
        exact ⟨[], first, rest, rfl, by simp, hc⟩
      · intro h
        obtain ⟨front, tx, back, he, hf, ht⟩ := h
        cases front with
        | nil =>
          cases he
          rw [← hc, ht]
        | cons head tail =>
          cases he
          rw [hf first List.mem_cons_self] at hc
          cases hc
    | valid =>
      rw [ih]
      constructor
      · intro h
        obtain ⟨front, tx, back, he, hf, ht⟩ := h
        exact ⟨first :: front, tx, back, by rw [he, List.cons_append],
          List.forall_mem_cons.mpr ⟨hc, hf⟩, ht⟩
      · intro h
        obtain ⟨front, tx, back, he, hf, ht⟩ := h
        cases front with
        | nil =>
          cases he
          rw [ht] at hc
          cases hc
        | cons head tail =>
          cases he
          exact ⟨tail, tx, back, rfl, (List.forall_mem_cons.mp hf).2, ht⟩

section Assemble
variable {lock : Script} {reward : Amount} {txs : List Transaction} {previous : Hash}
  {time : UInt64}

/-- A made block fails neither for its root nor for want of a coinbase. -/
theorem check_assemble :
    (Block.assemble lock reward txs previous time).check
      = if txs.any (·.isCoinbase) then .invalid .coinbaseMultiple
        else checkTransactions (rewardCoinbase lock reward :: txs) := by
  have hr : transactionRoot? (Block.assemble lock reward txs previous time).transactions
      = some (Block.assemble lock reward txs previous time).header.root := by
    simp [Block.assemble]
  rw [Block.check, hr]
  simp only [ne_eq, not_true_eq_false, if_false]
  have ht : (Block.assemble lock reward txs previous time).transactions
      = rewardCoinbase lock reward :: txs := rfl
  rw [ht, checkCoinbase]
  cases txs.any (·.isCoinbase) <;> simp [rewardCoinbase, Transaction.isCoinbase]

theorem checkTransactions_rewardCoinbase (h : WithinMoney reward.toInt) :
    checkTransactions (rewardCoinbase lock reward :: txs) = checkTransactions txs := by
  rw [checkTransactions, rewardCoinbase_check_iff.mpr h]

end Assemble

namespace Settings

theorem fault?_eq_none_iff {settings : Settings} : settings.fault? = none
    ↔ WithinMoney settings.blockReward.toInt ∧ settings.leadingZeros ≤ 64 := by
  rw [fault?, WithinMoney, ← inMoneyRange_iff, ← UInt64.not_lt]
  cases inMoneyRange settings.blockReward <;> simp

end Settings

namespace Node

theorem ofSettings?_eq_ok_iff {settings : Settings} {node : Node} :
    ofSettings? settings = .ok node ↔ node.settings = settings := by
  rw [ofSettings?]
  split
  · rename_i fault hf
    refine iff_of_false (by simp) ?_
    intro he
    rw [← he, node.sound] at hf
    cases hf
  · rw [Except.ok.injEq]
    constructor
    · intro he
      rw [← he]
    · intro he
      cases he
      rfl

theorem exists_ofSettings?_iff {settings : Settings} :
    (∃ node, ofSettings? settings = .ok node) ↔ settings.fault? = none := by
  constructor
  · intro h
    obtain ⟨node, hn⟩ := h
    rw [← ofSettings?_eq_ok_iff.mp hn]
    exact node.sound
  · intro h
    exact ⟨⟨settings, h⟩, ofSettings?_eq_ok_iff.mpr rfl⟩

variable (node : Node) {lock : Script} {txs : List Transaction} {previous : Hash} {time : UInt64}

theorem check_assemble_of_coinbase (h : ∃ tx ∈ txs, tx.isCoinbase = true) :
    (node.assemble lock txs previous time).check = .invalid .coinbaseMultiple := by
  rw [assemble, check_assemble, if_pos (List.any_eq_true.mpr h)]

theorem check_assemble_of_spends (h : ∀ tx ∈ txs, tx.isCoinbase = false) :
    (node.assemble lock txs previous time).check = checkTransactions txs := by
  have hreward := (Settings.fault?_eq_none_iff.mp node.sound).1
  rw [assemble, check_assemble, if_neg (by simpa using h),
    checkTransactions_rewardCoinbase hreward]

/-- The reasons for which a made block can fail are those of its transactions. -/
theorem reason_of_check_assemble {reason : RejectReason}
    (h : (node.assemble lock txs previous time).check = .invalid reason) :
    reason = .coinbaseMultiple ∨ reason ∈ Transaction.structuralReasons := by
  by_cases hc : ∃ tx ∈ txs, tx.isCoinbase = true
  · rw [node.check_assemble_of_coinbase hc] at h
    cases h
    exact Or.inl rfl
  · rw [node.check_assemble_of_spends (by simpa using hc)] at h
    obtain ⟨front, tx, back, _, _, ht⟩ := checkTransactions_eq_invalid_iff.mp h
    exact Or.inr (Transaction.mem_structuralReasons_of_refused (Transaction.refused_of_check ht))

theorem exists_mine (block : Block) : ∃ found mined nonce, node.mine block = .ok (found, mined)
    ∧ mined = { block with header := { block.header with nonce } } := by
  have hz := (Settings.fault?_eq_none_iff.mp node.sound).2
  obtain ⟨⟨found, mined⟩, hm⟩ := Block.exists_mine_iff.mpr hz
  obtain ⟨nonce, hn⟩ := Block.mine_frame hm
  exact ⟨found, mined, nonce, by rw [mine, hm]; rfl, hn⟩

end Node

/-- A node can be had for exactly those settings under which the block of a lone reward passes by
itself and can be searched for a nonce. What a node makes passes by itself unless there is another
coinbase, or else for the reason of the first transaction that does not pass by itself, and its root
and its coinbase are never the reason. The search always has an answer, and whatever this is, the
block that comes back is checked and connected like the one that was made. -/
theorem making_agrees_with_checking :
    (∀ (settings : Settings) (attempts : UInt64),
        (∃ node, Node.ofSettings? settings = .ok node) ↔ ∀ lock previous time,
          let block := Block.assemble lock settings.blockReward [] previous time
          block.check = .valid ∧ ∃ answer, block.mine settings.leadingZeros attempts = .ok answer)
      ∧ (∀ settings node, Node.ofSettings? settings = .ok node → node.settings = settings)
      ∧ ∀ (node : Node) (lock : Script) (txs : List Transaction) (previous : Hash) (time : UInt64),
        let block := node.assemble lock txs previous time
        ((∃ tx ∈ txs, tx.isCoinbase = true) → block.check = .invalid .coinbaseMultiple)
          ∧ ((∀ tx ∈ txs, tx.isCoinbase = false) →
            (∀ reason, block.check = .invalid reason ↔ ∃ front tx back, txs = front ++ tx :: back
                ∧ (∀ other ∈ front, other.check = .valid) ∧ tx.check = .invalid reason)
              ∧ (block.check = .valid ↔ ∀ tx ∈ txs, tx.check = .valid))
          ∧ block.check ≠ .invalid .badMerkleRoot ∧ block.check ≠ .invalid .coinbaseMissing
          ∧ ∃ found mined, node.mine block = .ok (found, mined) ∧ mined.check = block.check
            ∧ ∀ view : CoinView, view.connect mined = view.connect block := by
  refine ⟨?_, fun _ _ => Node.ofSettings?_eq_ok_iff.mp, ?_⟩
  · intro settings attempts
    rw [Node.exists_ofSettings?_iff, Settings.fault?_eq_none_iff]
    constructor
    · intro h lock previous time
      refine ⟨?_, Block.exists_mine_iff.mpr h.2⟩
      rw [check_assemble, List.any_nil, checkTransactions_rewardCoinbase h.1]
      rfl
    · intro h
      obtain ⟨hv, ha⟩ := h [] (sha256 []) 0
      have hk := checkTransactions_eq_valid_iff.mp (Block.check_eq_valid_iff.mp hv).2.2
      have hreward := hk (rewardCoinbase [] settings.blockReward) List.mem_cons_self
      exact ⟨rewardCoinbase_check_iff.mp hreward, Block.exists_mine_iff.mp ha⟩
  · intro node lock txs previous time block
    obtain ⟨found, mined, nonce, hm, hn⟩ := node.exists_mine block
    refine ⟨node.check_assemble_of_coinbase, ?_, ?_, ?_, found, mined, hm, ?_, ?_⟩
    · intro hs
      show (∀ reason, block.check = _ ↔ _) ∧ (block.check = _ ↔ _)
      rw [node.check_assemble_of_spends hs]
      exact ⟨fun _ => checkTransactions_eq_invalid_iff, checkTransactions_eq_valid_iff⟩
    · intro h
      exact absurd (node.reason_of_check_assemble h) (by decide)
    · intro h
      exact absurd (node.reason_of_check_assemble h) (by decide)
    · rw [hn]
      exact Block.check_congr rfl rfl
    · intro view
      rw [hn]
      exact Block.connect_congr rfl rfl view

/-- A block made of a transaction that passes by itself and one that does not. -/
def halfSoundBlock : Block :=
  Node.standard.assemble [] [allAndNothing, manyFaults] (sha256 []) 0

theorem halfSoundBlock_mined : halfSoundBlock.check = .invalid .outputTotalTooLarge
    ∧ ∃ found mined, Node.standard.mine halfSoundBlock = .ok (found, mined)
      ∧ mined.check = .invalid .outputTotalTooLarge := by
  have hsound : allAndNothing.check = .valid := by decide +kernel
  have hfault : manyFaults.check = .invalid .outputTotalTooLarge := by decide
  obtain ⟨_, _, hmade⟩ := making_agrees_with_checking
  obtain ⟨_, hspends, _, _, found, mined, hm, hc, _⟩ :=
    hmade Node.standard [] [allAndNothing, manyFaults] (sha256 []) 0
  have hfirst := ((hspends (by decide)).1 .outputTotalTooLarge).mpr
    ⟨[allAndNothing], manyFaults, [], rfl, by simpa using hsound, hfault⟩
  exact ⟨hfirst, found, mined, hm, hc.trans hfirst⟩

end CoinLedger
