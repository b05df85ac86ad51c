import Mathlib.Data.List.Nodup
import CoinLedger.Block.Mining
import CoinLedger.Proofs.Chain.History
import CoinLedger.Proofs.Script.Locks

/-! No coin leaves without the leave of its lock. A block that makes nothing at a place keeps the
coin there as it is, or names it once, in an input whose script opens the lock of that very coin. -/
namespace CoinLedger
open CoinView

/-- Input `k` of transaction `i` of a list names the place. -/
structure NamedAt (txs : List Transaction) (point : OutPoint) (i k : Nat) (tx : Transaction)
    (input : Input) : Prop where
  transaction_at : txs[i]? = some tx
  input_at : tx.inputs[k]? = some input
  prevout_eq : input.prevout = point

/-- Where nothing is made, the coin of the beginning stays until its place is named. -/
theorem CoinView.coin?_foldl_update {view : CoinView} {txs : List Transaction} {point : OutPoint}
    (hn : ∀ tx ∈ txs, point ∉ tx.made) :
    (txs.foldl update view).coin? point
      = if point ∈ txs.flatMap (·.prevouts) then none else view.coin? point := by
  induction txs generalizing view with
  | nil => rfl
  | cons tx rest ih =>
    obtain ⟨ht, hr⟩ := List.forall_mem_cons.mp hn
    have hl := Transaction.lastAt_created_eq_none_iff.mpr ht
    rw [List.foldl_cons, ih hr, coin?_update, hl, settle_none, List.flatMap_cons]
    by_cases hp : point ∈ tx.prevouts <;> simp [hp]

section Process
variable {view done : CoinView} {txs : List Transaction} {point : OutPoint} {coin : Coin}

theorem NamedAt.mem_prevouts {i k : Nat} {tx : Transaction} {input : Input}
    (h : NamedAt txs point i k tx input) : point ∈ tx.prevouts := by
  rw [← h.prevout_eq]
  exact List.mem_map_of_mem (List.mem_of_getElem? h.input_at)

theorem exists_namedAt (h : point ∈ txs.flatMap (·.prevouts)) :
    ∃ (i k : Nat) (tx : Transaction) (input : Input), NamedAt txs point i k tx input := by
  obtain ⟨tx, hm, hp⟩ := List.mem_flatMap.mp h
  obtain ⟨input, hi, he⟩ := List.mem_map.mp hp
  obtain ⟨i, ht⟩ := List.mem_iff_getElem?.mp hm
  obtain ⟨k, hk⟩ := List.mem_iff_getElem?.mp hi
  exact ⟨i, k, tx, input, ht, hk, he⟩

/-- When a place is named where nothing is made, no transaction before has named it, and it has the
coin of the beginning. -/
theorem coin?_before_naming (h : view.process txs = .ok done) (hn : ∀ tx ∈ txs, point ∉ tx.made)
    {i : Nat} {tx : Transaction} (hi : txs[i]? = some tx) (hp : point ∈ tx.prevouts) :
    point ∉ (txs.take i).flatMap (·.prevouts)
      ∧ ((txs.take i).foldl update view).coin? point = view.coin? point := by
  obtain ⟨found, hf⟩ := coin?_of_verify (verify_of_process h hi) hp
  have hc : ((txs.take i).foldl update view).coin? point
      = if point ∈ (txs.take i).flatMap (·.prevouts) then none else view.coin? point :=
    coin?_foldl_update fun tx hm => hn tx (List.mem_of_mem_take hm)
  have hnot : point ∉ (txs.take i).flatMap (·.prevouts) := by
    intro hm
    rw [hc, if_pos hm] at hf
    cases hf
  exact ⟨hnot, by rw [hc, if_neg hnot]⟩

theorem not_namedAt_of_lt (h : view.process txs = .ok done) (hn : ∀ tx ∈ txs, point ∉ tx.made)
    {i j k l : Nat} {t u : Transaction} {a b : Input} (hij : i < j)
    (ht : NamedAt txs point i k t a) : ¬NamedAt txs point j l u b := by
  intro hu
  have hnot := (coin?_before_naming h hn hu.transaction_at hu.mem_prevouts).1
  apply hnot
  have hti : (txs.take j)[i]? = some t := by
    rw [List.getElem?_take_of_lt hij, ht.transaction_at]
  exact List.mem_flatMap.mpr ⟨t, List.mem_of_getElem? hti, ht.mem_prevouts⟩

theorem NamedAt.unique (hk : ∀ tx ∈ txs, tx.check = .valid) (h : view.process txs = .ok done)
    (hn : ∀ tx ∈ txs, point ∉ tx.made) {i j k l : Nat} {t u : Transaction} {a b : Input}
    (ht : NamedAt txs point i k t a) (hu : NamedAt txs point j l u b) : j = i ∧ l = k := by
  have hij : j = i := by
    by_contra hne
    cases Nat.lt_or_gt_of_ne hne with
    | inl hlt => exact not_namedAt_of_lt h hn hlt hu ht
    | inr hgt => exact not_namedAt_of_lt h hn hgt ht hu
  subst hij
  have htu : t = u := Option.some.inj (ht.transaction_at.symm.trans hu.transaction_at)
  subst htu
  have hd := Transaction.nodup_prevouts_of_check (hk t (List.mem_of_getElem? ht.transaction_at))
  have hpk : t.prevouts[k]? = some point := by
    rw [Transaction.prevouts, List.getElem?_map, ht.input_at, Option.map_some, ht.prevout_eq]
  have hpl : t.prevouts[l]? = some point := by
    rw [Transaction.prevouts, List.getElem?_map, hu.input_at, Option.map_some, hu.prevout_eq]
  have hll : l < t.prevouts.length := (List.getElem?_eq_some_iff.mp hpl).1
  exact ⟨rfl, (List.getElem?_inj hll hd).mp (by rw [hpl, hpk])⟩

theorem opens_of_namedAt (h : view.process txs = .ok done) (hn : ∀ tx ∈ txs, point ∉ tx.made)
    (hc : view.coin? point = some coin) {i k : Nat} {tx : Transaction} {input : Input}
    (ht : NamedAt txs point i k tx input) :
    Script.opens input.unlock.script coin.output.lock tx k = .ok true := by
  have hb := (coin?_before_naming h hn ht.transaction_at ht.mem_prevouts).2
  rw [hc, ← ht.prevout_eq] at hb
  exact opens_of_verify (verify_of_process h ht.transaction_at) ht.input_at hb

end Process

/-- A coin of a ledger at whose place an accepted block makes nothing is still there, the same, and
not named; or it is gone, and one input names it, which opens its lock. For a lock on a key hash
this input has a key with that hash and a signature by it. -/
theorem kept_or_authorized {coins : CoinMap} {block : Block} {after : CoinView}
    (h : (ledger coins).connect block = (.valid, after)) {point : OutPoint} {coin : Coin}
    (hc : (ledger coins).coin? point = some coin)
    (hn : ∀ tx ∈ block.transactions, tx.id ≠ point.txid) :
    (after.coin? point = some coin ∧ ∀ tx ∈ block.transactions, point ∉ tx.prevouts)
      ∨ after.coin? point = none ∧ ∃ (i k : Nat) (tx : Transaction) (input : Input),
        NamedAt block.transactions point i k tx input
        ∧ (∀ (j l : Nat) (other : Transaction) (found : Input),
          NamedAt block.transactions point j l other found → j = i ∧ l = k)
        ∧ (∃ outcome, Script.eval (input.unlock.script ++ coin.output.lock) tx k = .ok outcome
          ∧ outcome.accepted = true)
        ∧ ∀ publicKey, coin.output.lock = Script.payToKeyHash publicKey →
          hash160 input.unlock.publicKey = hash160 publicKey
            ∧ verifySignature input.unlock.signature input.unlock.publicKey tx.signatureHash
              = true := by
  obtain ⟨hb, hp⟩ := connect_ledger_eq_valid_iff.mp h
  have hk := checkTransactions_eq_valid_iff.mp (Block.check_eq_valid_iff.mp hb).2.2
  have hm : ∀ tx ∈ block.transactions, point ∉ tx.made :=
    fun tx ht hmade => hn tx ht (Transaction.txid_of_mem_made hmade).symm
  have ha : after.coin? point
      = if point ∈ block.transactions.flatMap (·.prevouts) then none else some coin := by
    rw [← foldl_of_process hp, coin?_foldl_update hm, hc]
  by_cases hnamed : point ∈ block.transactions.flatMap (·.prevouts)
  · rw [if_pos hnamed] at ha
    obtain ⟨i, k, tx, input, ht⟩ := exists_namedAt hnamed
    have ho := opens_of_namedAt hp hm hc ht
    refine Or.inr ⟨ha, i, k, tx, input, ht, ?_, Script.opens_eq_ok_true_iff.mp ho, ?_⟩
    · intro j l other found hu
      exact NamedAt.unique hk hp hm ht hu
    · intro publicKey hl
      rw [hl, Script.opens_payToKeyHash] at ho
      simpa using ho
  · rw [if_neg hnamed] at ha
    refine Or.inl ⟨ha, ?_⟩
    intro tx ht hmem
    exact hnamed (List.mem_flatMap.mpr ⟨tx, ht, hmem⟩)

/-- The public key of the secret key one. -/
def keyOfOne : Bytes :=
  bigEndian 33 0x0279be667ef9dcbbac55a06295ce870b07029bfcdb2dce28d959f2815b16f81798

/-- A coin of seven, locked to that key. -/
def lockedToOne : CoinMap :=
  (∅ : CoinMap).insert ⟨sha256 [1], 0⟩ ⟨⟨7, Script.payToKeyHash keyOfOne⟩, false, false⟩

/-- The signature by that key of the spend below. -/
def signatureByOne : Bytes :=
  bigEndian 32 0x8c9f779e705c58bbf2a1d6396bb8ebc5da47cd213f9f86ff291bea2717907ecc
    ++ bigEndian 32 0x0be2eb0e0aaa1db45f85517c99e05b1f5f2a6b8fa1fea03fc61a324904e47ed9

/-- A block that spends the coin and leaves a fee of two. -/
def spendByOne : Block :=
  Block.assemble [] 50
    [.spend [⟨⟨sha256 [1], 0⟩, ⟨signatureByOne, keyOfOne⟩⟩] [⟨5, []⟩]] (sha256 []) 0

theorem spendByOne_authorized :
    ((ledger lockedToOne).connect spendByOne).1 = .valid
      ∧ ∃ (i k : Nat) (tx : Transaction) (input : Input),
        NamedAt spendByOne.transactions ⟨sha256 [1], 0⟩ i k tx input
        ∧ hash160 input.unlock.publicKey = hash160 keyOfOne
        ∧ verifySignature input.unlock.signature input.unlock.publicKey tx.signatureHash
          = true := by
  have hv : ((ledger lockedToOne).connect spendByOne).1 = .valid := by decide +kernel
  have hc : (ledger lockedToOne).coin? ⟨sha256 [1], 0⟩
      = some ⟨⟨7, Script.payToKeyHash keyOfOne⟩, false, false⟩ := by
    simp [coin?, lockedToOne, Option.filter]
  have hn : ∀ tx ∈ spendByOne.transactions, tx.id ≠ sha256 [1] := by decide +kernel
  have hnamed : ∃ tx ∈ spendByOne.transactions, (⟨sha256 [1], 0⟩ : OutPoint) ∈ tx.prevouts := by
    decide +kernel
  refine ⟨hv, ?_⟩
  cases kept_or_authorized (Prod.ext hv rfl) hc hn with
  | inl hkept =>
    obtain ⟨tx, hm, hp⟩ := hnamed
    exact absurd hp (hkept.2 tx hm)
  | inr hspent =>
    obtain ⟨_, i, k, tx, input, ht, _, _, hkey⟩ := hspent
    exact ⟨i, k, tx, input, ht, hkey keyOfOne rfl⟩

end CoinLedger
