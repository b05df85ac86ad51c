import Mathlib.Data.List.Nodup
import CoinLedger.Proofs.View.Lookup
import CoinLedger.Proofs.View.Valid
import CoinLedger.Proofs.Chain.Run

/-! Where a coin comes from. A coin that is visible after some transactions was either there before
them or put there by one of them, and nothing named its place since. So a place that is named twice
was filled in between, and in a run from nothing also before it was named first. -/
namespace CoinLedger

namespace Transaction

/-- The places that a transaction puts coins at. -/
def made (tx : Transaction) : List OutPoint :=
  tx.created.map (·.1)

theorem txid_of_mem_made {tx : Transaction} {point : OutPoint} (h : point ∈ tx.made) :
    point.txid = tx.id := by
  obtain ⟨entry, hm, rfl⟩ := List.mem_map.mp h
  obtain ⟨output, _, rfl⟩ := List.mem_map.mp hm
  rfl

theorem mem_made {tx : Transaction} {entry : OutPoint × Coin} (h : entry ∈ tx.created) :
    entry.1 ∈ tx.made :=
  List.mem_map_of_mem h

theorem made_eq (tx : Transaction) :
    tx.made = (List.range tx.outputs.length).map fun i => ⟨tx.id, UInt32.ofNat i⟩ := by
  rw [made, created, List.map_map, List.range_eq_range', ← List.zipIdx_map_snd 0 tx.outputs,
    List.map_map]
  rfl

/-- As long as positions fit in the width of an index, every output goes to a place of its own. -/
theorem nodup_made {tx : Transaction} (h : tx.outputs.length ≤ UInt32.size) : tx.made.Nodup := by
  rw [made_eq]
  refine List.nodup_range.map_on ?_
  intro i hi j hj he
  have hij := congrArg UInt32.toNat (OutPoint.mk.inj he).2
  have hw : UInt32.size = 4294967296 := rfl
  rw [List.mem_range] at hi hj
  rw [UInt32.toNat_ofNat', UInt32.toNat_ofNat'] at hij
  omega

theorem pairwise_created {tx : Transaction} (h : tx.outputs.length ≤ UInt32.size) :
    tx.created.Pairwise fun a b => a.1 ≠ b.1 :=
  List.pairwise_map.mp (nodup_made h)

theorem lastAt_created_eq_none_iff {tx : Transaction} {point : OutPoint} :
    lastAt point tx.created = none ↔ point ∉ tx.made := by
  rw [lastAt_eq_none_iff, made, List.mem_map]
  constructor
  · rintro h ⟨entry, hm, he⟩
    exact h entry hm he
  · intro h entry hm he
    exact h ⟨entry, hm, he⟩

end Transaction

namespace CoinView

theorem hasCoin_of_coin? {view : CoinView} {point : OutPoint} {coin : Coin}
    (h : view.coin? point = some coin) : view.hasCoin point = true := by
  rw [hasCoin, h]
  rfl

/-- After a transaction there is a coin where it makes one, and where there was one that it does not
spend. -/
theorem hasCoin_update_iff (view : CoinView) (tx : Transaction) (point : OutPoint) :
    (view.update tx).hasCoin point = true
      ↔ point ∈ tx.made ∨ point ∉ tx.prevouts ∧ view.hasCoin point = true := by
  rw [hasCoin, coin?_update]
  cases hl : lastAt point tx.created with
  | some coin =>
    have hc := mem_of_lastAt hl
    have hm : point ∈ tx.made := Transaction.mem_made hc
    have hs : coin.spent = false := spent_of_mem_created hc
    simp [settle, hs, hm]
  | none =>
    have hm : point ∉ tx.made := Transaction.lastAt_created_eq_none_iff.mp hl
    by_cases hp : point ∈ tx.prevouts
    · simp [hm, hp]
    · simp [hm, hp, hasCoin]

/-- A visible coin is one from before, or the work of the last transaction that could have made or
taken it. -/
theorem origin_of_coin? {view : CoinView} {txs : List Transaction} {point : OutPoint} {coin : Coin}
    (h : (txs.foldl update view).coin? point = some coin) :
    (view.coin? point = some coin ∧ ∀ tx ∈ txs, point ∉ tx.prevouts)
      ∨ ∃ (k : Nat) (maker : Transaction), txs[k]? = some maker ∧ (point, coin) ∈ maker.created
        ∧ ∀ (m : Nat) (tx : Transaction), k < m → txs[m]? = some tx → point ∉ tx.prevouts := by
  induction txs generalizing view with
  | nil => exact Or.inl ⟨h, by simp⟩
  | cons first rest ih =>
    rw [List.foldl_cons] at h
    cases ih h with
    | inr hr =>
      obtain ⟨k, maker, hk, hm, hn⟩ := hr
      refine Or.inr ⟨k + 1, maker, hk, hm, ?_⟩
      intro m tx hlt ht
      cases m with
      | zero => omega
      | succ m => exact hn m tx (by omega) ht
    | inl hl =>
      obtain ⟨hc, hn⟩ := hl
      rw [coin?_update] at hc
      cases hm : lastAt point first.created with
      | some new =>
        rw [hm, settle] at hc
        split at hc
        · cases hc
        · cases hc
          refine Or.inr ⟨0, first, rfl, mem_of_lastAt hm, ?_⟩
          intro m tx hlt ht
          cases m with
          | zero => omega
          | succ m => exact hn tx (List.mem_of_getElem? ht)
      | none =>
        rw [hm, settle_none] at hc
        split at hc
        · cases hc
        · rename_i hp
          exact Or.inl ⟨hc, List.forall_mem_cons.mpr ⟨hp, hn⟩⟩

theorem coin?_empty (point : OutPoint) : empty.coin? point = none := rfl

/-- A place that is named has the coin of the beginning, not named so far, or was filled by an
earlier transaction and not named since. -/
theorem origin_of_mem_prevouts {view done : CoinView} {txs : List Transaction}
    (h : view.process txs = .ok done) {j : Nat} {tx : Transaction} (hj : txs[j]? = some tx)
    {point : OutPoint} (hp : point ∈ tx.prevouts) :
    (∀ (m : Nat) (other : Transaction), m < j → txs[m]? = some other → point ∉ other.prevouts)
        ∧ view.hasCoin point = true
      ∨ ∃ (k : Nat) (maker : Transaction), k < j ∧ txs[k]? = some maker ∧ point ∈ maker.made
        ∧ ∀ (m : Nat) (other : Transaction), k < m → m < j → txs[m]? = some other
          → point ∉ other.prevouts := by
  obtain ⟨coin, hc⟩ := coin?_of_verify (verify_of_process h hj) hp
  cases origin_of_coin? hc with
  | inl hl =>
    obtain ⟨hv, hn⟩ := hl
    refine Or.inl ⟨?_, hasCoin_of_coin? hv⟩
    intro m other hm ho
    rw [← List.getElem?_take_of_lt hm] at ho
    exact hn other (List.mem_of_getElem? ho)
  | inr hr =>
    obtain ⟨k, maker, hk, hm, hn⟩ := hr
    have hlt : k < j := by
      have hl := (List.getElem?_eq_some_iff.mp hk).1
      rw [List.length_take] at hl
      omega
    rw [List.getElem?_take_of_lt hlt] at hk
    refine Or.inr ⟨k, maker, hlt, hk, Transaction.mem_made hm, ?_⟩
    intro m other hkm hmj ho
    exact hn m other hkm (by rw [List.getElem?_take_of_lt hmj, ho])

/-- In a run from nothing, a place that is named was filled before, and not named in between. -/
theorem maker_of_mem_prevouts {txs : List Transaction} {done : CoinView}
    (h : empty.process txs = .ok done) {j : Nat} {tx : Transaction} (hj : txs[j]? = some tx)
    {point : OutPoint} (hp : point ∈ tx.prevouts) :
    ∃ (k : Nat) (maker : Transaction), k < j ∧ txs[k]? = some maker ∧ point ∈ maker.made
      ∧ ∀ (m : Nat) (other : Transaction), k < m → m < j → txs[m]? = some other
        → point ∉ other.prevouts := by
  cases origin_of_mem_prevouts h hj hp with
  | inl hl =>
    rw [hasCoin, coin?_empty] at hl
    cases hl.2
  | inr hr => exact hr

/-- Where a place is named twice, it was filled by a transaction from the first of the two on. -/
theorem maker_between {view done : CoinView} {txs : List Transaction}
    (h : view.process txs = .ok done) {i j : Nat} {t u : Transaction} (hij : i < j)
    (hi : txs[i]? = some t) (hj : txs[j]? = some u) {point : OutPoint} (ht : point ∈ t.prevouts)
    (hu : point ∈ u.prevouts) :
    ∃ (k : Nat) (maker : Transaction), i ≤ k ∧ k < j ∧ txs[k]? = some maker
      ∧ point ∈ maker.made := by
  cases origin_of_mem_prevouts h hj hu with
  | inl hl => exact absurd ht (hl.1 i t hij hi)
  | inr hr =>
    obtain ⟨k, maker, hkj, hk, hm, hidle⟩ := hr
    have hik : i ≤ k := Nat.le_of_not_lt fun hki => hidle i t hki hij hi ht
    exact ⟨k, maker, hik, hkj, hk, hm⟩

end CoinView
end CoinLedger
