import CoinLedger.Proofs.View.Agreement
import CoinLedger.Proofs.View.Valid

/-! Connecting a block to the ledger is the same as working through it in place on a copy. The
overlay mirrors the copy after every transaction: where it has a change, the copy holds what the
change says, and elsewhere what the ledger held. So the commit rebuilds the copy entry by entry,
entries marked as spent included. -/
namespace CoinLedger
open Std

def CoinMap.carryOut (coins : CoinMap) (entries : List (OutPoint × Coin)) : CoinMap :=
  entries.foldl (fun coins entry =>
    if entry.2.spent then coins.erase entry.1 else coins.insert entry.1 entry.2) coins

/-- The effect of a transaction on a map itself: its prevouts are taken out, then what it makes is
put in. -/
def CoinMap.update (coins : CoinMap) (tx : Transaction) : CoinMap :=
  tx.created.foldl (fun coins entry => coins.insert entry.1 entry.2)
    (tx.prevouts.foldl (fun coins point => coins.erase point) coins)

/-- The effect of transactions on a map itself, each verified against what the ones before it left,
up to the first refused. -/
def CoinMap.process (coins : CoinMap) : List Transaction → Except RejectReason CoinMap
  | [] => .ok coins
  | tx :: rest =>
    match (CoinView.ledger coins).verify tx with
    | .invalid reason => .error reason
    | .valid => CoinMap.process (coins.update tx) rest

/-- Connect a block without an overlay: the transactions run on a copy of the map, which takes its
place only if all of them pass. -/
def CoinMap.connectInPlace (coins : CoinMap) (block : Block) : Verdict × CoinMap :=
  match block.check with
  | .invalid reason => (.invalid reason, coins)
  | .valid =>
    match coins.process block.transactions with
    | .error reason => (.invalid reason, coins)
    | .ok done => (.valid, done)

namespace CoinView

/-- Connect a block, with the changes carried out in an order of choice. -/
def connectBy (listing : Listing) (view : CoinView) (block : Block) : Verdict × CoinView :=
  match block.check with
  | .invalid reason => (.invalid reason, view)
  | .valid =>
    match view.layer.process block.transactions with
    | .error reason => (.invalid reason, view)
    | .ok done => (.valid, done.commitBy listing)

theorem connectBy_sorted (view : CoinView) (block : Block) :
    view.connectBy .sorted block = view.connect block := rfl

end CoinView

open CoinView

theorem CoinMap.getElem?_carryOut (coins : CoinMap) (entries : List (OutPoint × Coin))
    (point : OutPoint) :
    (coins.carryOut entries)[point]? = settle (lastAt point entries) coins[point]? := by
  apply read_foldl _ (fun coins : CoinMap => coins[point]?)
  intro coins entry
  by_cases hp : entry.1 = point
  · cases hs : entry.2.spent <;> simp [settle, hs, hp]
  · cases hs : entry.2.spent <;>
      simp [hp, ExtTreeMap.getElem?_insert, ExtTreeMap.getElem?_erase]

theorem applyEntries_ledger (coins : CoinMap) (entries : List (OutPoint × Coin)) :
    (ledger coins).applyEntries entries = ledger (coins.carryOut entries) := by
  apply List.foldl_hom ledger
  intro coins entry
  cases hs : entry.2.spent <;> simp [applyEntry, addCoin, spendCoin, hs]

theorem spendCoins_ledger (coins : CoinMap) (points : List OutPoint) :
    points.foldl spendCoin (ledger coins)
      = ledger (points.foldl (fun coins point => coins.erase point) coins) :=
  List.foldl_hom ledger fun _ _ => rfl

theorem addEntries_ledger (coins : CoinMap) (entries : List (OutPoint × Coin)) :
    entries.foldl (fun view entry => view.addCoin entry.1 entry.2) (ledger coins)
      = ledger (entries.foldl (fun coins entry => coins.insert entry.1 entry.2) coins) :=
  List.foldl_hom ledger fun _ _ => rfl

theorem update_ledger (coins : CoinMap) (tx : Transaction) :
    (ledger coins).update tx = ledger (coins.update tx) := by
  rw [CoinView.update, spendCoins_ledger, addCoins, addEntries_ledger, CoinMap.update]

/-- A ledger goes through transactions as its map does. -/
theorem process_ledger (coins : CoinMap) (txs : List Transaction) :
    (ledger coins).process txs = (coins.process txs).map ledger := by
  induction txs generalizing coins with
  | nil => rfl
  | cons tx rest ih =>
    rw [CoinView.process, CoinMap.process]
    cases (ledger coins).verify tx with
    | invalid reason => rfl
    | valid =>
      rw [update_ledger]
      exact ih (coins.update tx)

theorem ledger_of_process {coins : CoinMap} {txs : List Transaction} {done : CoinView}
    (h : (ledger coins).process txs = .ok done) :
    ∃ after, coins.process txs = .ok after ∧ done = ledger after := by
  rw [process_ledger] at h
  cases hp : coins.process txs with
  | error reason =>
    rw [hp] at h
    cases h
  | ok after =>
    rw [hp] at h
    cases h
    exact ⟨after, rfl, rfl⟩

/-- A view and a map go through transactions alike, whatever relation of the two it is that makes
their coins agree and outlasts a transaction that passes. -/
theorem process_together {R : CoinView → CoinMap → Prop}
    (agree : ∀ {view coins}, R view coins → view.Agree (ledger coins))
    (step : ∀ {view coins tx}, R view coins → view.verify tx = .valid →
      R (view.update tx) (coins.update tx))
    {view : CoinView} {coins : CoinMap} (h : R view coins) (txs : List Transaction) :
    (∃ reason, view.process txs = .error reason ∧ coins.process txs = .error reason)
      ∨ ∃ done after, view.process txs = .ok done ∧ coins.process txs = .ok after
        ∧ R done after := by
  induction txs generalizing view coins with
  | nil => exact Or.inr ⟨view, coins, rfl, rfl, h⟩
  | cons tx rest ih =>
    rw [CoinView.process, CoinMap.process, ← (agree h).verify tx]
    cases hv : view.verify tx with
    | invalid reason => exact Or.inl ⟨reason, rfl, rfl⟩
    | valid => exact ih (step h hv)

theorem spent_of_mem_created {tx : Transaction} {entry : OutPoint × Coin}
    (h : entry ∈ tx.created) : entry.2.spent = false := by
  obtain ⟨output, _, rfl⟩ := List.mem_map.mp h
  rfl

namespace CoinMap

theorem getElem?_eraseAll (coins : CoinMap) (points : List OutPoint) (point : OutPoint) :
    (points.foldl (fun coins point => coins.erase point) coins)[point]?
      = if point ∈ points then none else coins[point]? := by
  induction points generalizing coins with
  | nil => simp
  | cons first rest ih =>
    rw [List.foldl_cons, ih, ExtTreeMap.getElem?_erase]
    by_cases hf : first = point
    · simp [hf]
    · simp [hf, Ne.symm hf]

theorem insertAll_eq_carryOut (coins : CoinMap) {entries : List (OutPoint × Coin)}
    (hs : ∀ entry ∈ entries, entry.2.spent = false) :
    entries.foldl (fun coins entry => coins.insert entry.1 entry.2) coins
      = coins.carryOut entries := by
  induction entries generalizing coins with
  | nil => rfl
  | cons entry rest ih =>
    obtain ⟨he, hr⟩ := List.forall_mem_cons.mp hs
    rw [List.foldl_cons, ih (coins.insert entry.1 entry.2) hr, carryOut, carryOut, List.foldl_cons,
      he]
    rfl

/-- The entry at a place after a transaction: what it makes last there, or else nothing where it
spends. -/
theorem getElem?_update (coins : CoinMap) (tx : Transaction) (point : OutPoint) :
    (coins.update tx)[point]?
      = settle (lastAt point tx.created) (if point ∈ tx.prevouts then none else coins[point]?) := by
  rw [CoinMap.update, insertAll_eq_carryOut _ fun _ he => spent_of_mem_created he,
    getElem?_carryOut, getElem?_eraseAll]

end CoinMap

theorem filter_settle (change below : Option Coin) :
    (settle change below).filter (fun coin => !coin.spent)
      = settle change (below.filter fun coin => !coin.spent) := by
  cases change with
  | none => rfl
  | some coin => cases hs : coin.spent <;> simp [settle, hs]

/-- An overlay on a ledger and a copy of the ledger that had the same done to it. -/
def Mirrors (base : CoinMap) (view : CoinView) (copy : CoinMap) : Prop :=
  ∃ changes : CoinMap, view = overlay (ledger base) changes
    ∧ ∀ point : OutPoint, copy[point]? = settle changes[point]? base[point]?

namespace Mirrors
variable {base copy : CoinMap} {view : CoinView}

theorem layer (base : CoinMap) : Mirrors base (ledger base).layer base :=
  ⟨∅, rfl, fun point => by simp⟩

theorem agree (h : Mirrors base view copy) : view.Agree (ledger copy) := by
  obtain ⟨changes, rfl, hm⟩ := h
  intro point
  rw [coin?_overlay, coin?, coin?, hm, filter_settle]

theorem addCoin (h : Mirrors base view copy) (point : OutPoint) {coin : Coin}
    (hs : coin.spent = false) :
    Mirrors base (view.addCoin point coin) (copy.insert point coin) := by
  obtain ⟨changes, rfl, hm⟩ := h
  refine ⟨changes.insert point coin, rfl, ?_⟩
  intro other
  by_cases hp : point = other
  · simp [hp, settle, hs]
  · simp [ExtTreeMap.getElem?_insert, hp, hm]

/-- A copy loses an entry marked as spent when its place is spent, and an overlay keeps it. Hence
the hypothesis, which holds wherever a coin is visible. -/
theorem spendCoin (h : Mirrors base view copy) {point : OutPoint}
    (hs : ∀ coin, copy[point]? = some coin → coin.spent = false) :
    Mirrors base (view.spendCoin point) (copy.erase point) := by
  have ha := h.agree point
  obtain ⟨changes, rfl, hm⟩ := h
  cases hc : (overlay (ledger base) changes).coin? point with
  | none =>
    have he : copy[point]? = none := by
      cases hg : copy[point]? with
      | none => rfl
      | some coin =>
        rw [hc, coin?, hg] at ha
        simp [Option.filter, hs coin hg] at ha
    refine ⟨changes, by rw [CoinView.spendCoin, hc], ?_⟩
    intro other
    by_cases hp : point = other
    · subst hp
      rw [← hm, he, ExtTreeMap.getElem?_erase_self]
    · simp [ExtTreeMap.getElem?_erase, hp, hm]
  | some coin =>
    refine ⟨changes.insert point { coin with spent := true }, by rw [CoinView.spendCoin, hc], ?_⟩
    intro other
    by_cases hp : point = other
    · simp [hp, settle]
    · simp [ExtTreeMap.getElem?_insert, ExtTreeMap.getElem?_erase, hp, hm]

theorem spendCoins (h : Mirrors base view copy) {points : List OutPoint}
    (hs : ∀ point ∈ points, ∀ coin, copy[point]? = some coin → coin.spent = false) :
    Mirrors base (points.foldl CoinView.spendCoin view)
      (points.foldl (fun coins point => coins.erase point) copy) := by
  induction points generalizing view copy with
  | nil => exact h
  | cons first rest ih =>
    apply ih (h.spendCoin (hs first List.mem_cons_self))
    intro point hp coin hc
    -- Taking the first place out leaves no entry that was not there before.
    rw [ExtTreeMap.getElem?_erase] at hc
    split at hc
    · cases hc
    · exact hs point (List.mem_cons_of_mem first hp) coin hc

theorem addEntries (h : Mirrors base view copy) {entries : List (OutPoint × Coin)}
    (hs : ∀ entry ∈ entries, entry.2.spent = false) :
    Mirrors base (entries.foldl (fun view entry => view.addCoin entry.1 entry.2) view)
      (entries.foldl (fun coins entry => coins.insert entry.1 entry.2) copy) := by
  induction entries generalizing view copy with
  | nil => exact h
  | cons entry rest ih =>
    exact ih (h.addCoin entry.1 (hs entry List.mem_cons_self))
      fun other hm => hs other (List.mem_cons_of_mem entry hm)

theorem update (h : Mirrors base view copy) {tx : Transaction} (hv : view.verify tx = .valid) :
    Mirrors base (view.update tx) (copy.update tx) := by
  apply (h.spendCoins _).addEntries fun _ he => spent_of_mem_created he
  intro point hp coin hc
  obtain ⟨found, hf⟩ := coin?_of_verify hv hp
  rw [h.agree point, coin?, hc] at hf
  obtain ⟨he, hs⟩ := Option.filter_eq_some_iff.mp hf
  cases he
  simpa using hs

/-- The overlay refuses what the copy refuses, and both mirror each other to the end. -/
theorem process (h : Mirrors base view copy) (txs : List Transaction) :
    (∃ reason, view.process txs = .error reason ∧ copy.process txs = .error reason)
      ∨ ∃ done after, view.process txs = .ok done ∧ copy.process txs = .ok after
        ∧ Mirrors base done after :=
  process_together agree (fun h hv => h.update hv) h txs

theorem commitBy (h : Mirrors base view copy) (listing : Listing) :
    view.commitBy listing = ledger copy := by
  obtain ⟨changes, rfl, hm⟩ := h
  have hc : CoinMap.carryOut base (listing.entries changes) = copy := by
    apply ExtTreeMap.ext_getElem?
    intro point
    rw [CoinMap.getElem?_carryOut, listing.lastAt_entries, hm]
  rw [CoinView.commitBy, parent, CoinView.changes, applyEntries_ledger, hc]

end Mirrors

theorem connectBy_ledger (listing : Listing) (coins : CoinMap) (block : Block) :
    (ledger coins).connectBy listing block = (coins.connectInPlace block).map id ledger := by
  rw [connectBy, CoinMap.connectInPlace]
  cases block.check with
  | invalid reason => rfl
  | valid =>
    obtain ⟨reason, ho, hc⟩ | ⟨done, after, ho, hc, hm⟩ :=
      (Mirrors.layer coins).process block.transactions
    · simp only [ho, hc]
      rfl
    · simp only [ho, hc, hm.commitBy listing]
      rfl

theorem connect_ledger (coins : CoinMap) (block : Block) :
    (ledger coins).connect block = (coins.connectInPlace block).map id ledger := by
  rw [← connectBy_sorted, connectBy_ledger]

theorem connect_ledger_eq_valid_iff {coins : CoinMap} {block : Block} {view : CoinView} :
    (ledger coins).connect block = (.valid, view) ↔ block.check = .valid
      ∧ (ledger coins).process block.transactions = .ok view := by
  rw [connect_ledger, CoinMap.connectInPlace, process_ledger]
  cases block.check with
  | invalid reason => simp
  | valid =>
    cases coins.process block.transactions with
    | error reason => simp [Except.map]
    | ok done => simp [Except.map]

/-- Connecting a block to any ledger gives the verdict and the ledger, entry for entry, of working
through it in place on a plain map, whatever the order in which the overlay is carried out. -/
theorem connect_refines_inPlace (coins : CoinMap) (block : Block) :
    (ledger coins).connect block = (coins.connectInPlace block).map id ledger
      ∧ ∀ listing,
        (ledger coins).connectBy listing block = (coins.connectInPlace block).map id ledger :=
  ⟨connect_ledger coins block, fun listing => connectBy_ledger listing coins block⟩

end CoinLedger
