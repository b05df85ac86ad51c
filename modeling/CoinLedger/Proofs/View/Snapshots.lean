import CoinLedger.Block.Mining
import CoinLedger.Proofs.View.Layers
import Mathlib.Data.List.Forall2

/-! Overlays stacked to any depth are nested snapshots. The second definition is a stack of plain
maps without a mark or a shadow in it: opening an overlay copies the topmost map, dropping one
forgets it, and committing one puts it in the place of the map below. `Tracks` ties every open view
to its map, and one step of a caller keeps the tie. -/
namespace CoinLedger
open CoinView Std

/-- What a caller may do; a commit and a block come with the order of the changes. -/
inductive Action where
  | add (point : OutPoint) (coin : Coin)
  | spend (point : OutPoint)
  | update (tx : Transaction)
  | connect (listing : Listing) (block : Block)
  | layer
  | commit (listing : Listing)
  | drop

/-- One action on the topmost view. There is nothing to commit or drop on a bare ledger. -/
def CoinView.act (view : CoinView) : Action → CoinView
  | .add point coin => view.addCoin point coin
  | .spend point => view.spendCoin point
  | .update tx => view.update tx
  | .connect listing block => (view.connectBy listing block).2
  | .layer => view.layer
  | .commit listing => view.commitBy listing
  | .drop => view.parent

def CoinView.run (view : CoinView) (actions : List Action) : CoinView := actions.foldl act view

/-- The coins of a map that can be spent. -/
def CoinMap.visible (coins : CoinMap) : CoinMap := coins.filter fun _ coin => !coin.spent

/-- The topmost of a stack of plain maps, and the maps below it. -/
structure Snapshots where
  top : CoinMap
  below : List CoinMap

namespace Snapshots

/-- One action on a stack of plain maps. No order of changes matters here. -/
def act : Snapshots → Action → Snapshots
  | ⟨top, below⟩, .add point coin =>
    ⟨if coin.spent then top.erase point else top.insert point coin, below⟩
  | ⟨top, below⟩, .spend point => ⟨top.erase point, below⟩
  | ⟨top, below⟩, .update tx => ⟨top.update tx, below⟩
  | ⟨top, below⟩, .connect _ block => ⟨(top.connectInPlace block).2, below⟩
  | ⟨top, below⟩, .layer => ⟨top, top :: below⟩
  | ⟨top, below⟩, .commit _ => ⟨top, below.tail⟩
  | ⟨_, next :: below⟩, .drop => ⟨next, below⟩
  | ⟨top, []⟩, .drop => ⟨top, []⟩

def run (stack : Snapshots) (actions : List Action) : Snapshots := actions.foldl act stack

end Snapshots

/-- A view finds at every place what a plain map has there. -/
def Holds (view : CoinView) (plain : CoinMap) : Prop :=
  ∀ point : OutPoint, view.coin? point = plain[point]?

theorem holds_visible (coins : CoinMap) : Holds (ledger coins) coins.visible := by
  intro point
  rw [coin?, CoinMap.visible, ExtTreeMap.getElem?_filter']

namespace Holds
variable {view : CoinView} {plain : CoinMap}

theorem unspent (h : Holds view plain) : plain.Unspent := by
  intro point coin hc
  rw [← h point] at hc
  exact spent_of_coin? hc

theorem agree (h : Holds view plain) : view.Agree (ledger plain) := by
  intro point
  rw [h point, coin?_ledger_of_unspent h.unspent]

theorem of_agree (h : view.Agree (ledger plain)) (hs : plain.Unspent) : Holds view plain := by
  intro point
  rw [h point, coin?_ledger_of_unspent hs]

theorem layer (h : Holds view plain) : Holds view.layer plain :=
  fun point => (view.coin?_layer point).trans (h point)

theorem commitBy (h : Holds view plain) (listing : Listing) :
    Holds (view.commitBy listing) plain :=
  fun point => (view.coin?_commitBy listing point).trans (h point)

theorem addCoin (h : Holds view plain) (point : OutPoint) (coin : Coin) :
    Holds (view.addCoin point coin)
      (if coin.spent then plain.erase point else plain.insert point coin) := by
  intro other
  rw [coin?_addCoin, h other]
  by_cases hp : point = other
  · cases hs : coin.spent <;> simp [hp]
  · cases hs : coin.spent <;>
      simp [hp, ExtTreeMap.getElem?_insert, ExtTreeMap.getElem?_erase]

theorem spendCoin (h : Holds view plain) (point : OutPoint) :
    Holds (view.spendCoin point) (plain.erase point) := by
  intro other
  rw [coin?_spendCoin, h other]
  by_cases hp : point = other <;> simp [hp, ExtTreeMap.getElem?_erase]

theorem update (h : Holds view plain) (tx : Transaction) :
    Holds (view.update tx) (plain.update tx) := by
  have ha := h.agree.update tx
  rw [update_ledger] at ha
  exact of_agree ha (h.unspent.update tx)

theorem process (h : Holds view plain) (txs : List Transaction) :
    (∃ reason, view.process txs = .error reason ∧ plain.process txs = .error reason)
      ∨ ∃ done after, view.process txs = .ok done ∧ plain.process txs = .ok after
        ∧ Holds done after :=
  process_together agree (fun h _ => h.update _) h txs

/-- A block meets the same end on the plain map, and leaves the same coins. -/
theorem connectBy (h : Holds view plain) (listing : Listing) (block : Block) :
    (view.connectBy listing block).1 = (plain.connectInPlace block).1
      ∧ Holds (view.connectBy listing block).2 (plain.connectInPlace block).2 := by
  rw [CoinMap.connectInPlace, CoinView.connectBy]
  cases block.check with
  | invalid reason => exact ⟨rfl, h⟩
  | valid =>
    obtain ⟨reason, ho, hc⟩ | ⟨done, after, ho, hc, hd⟩ := h.layer.process block.transactions
    · simpa only [ho, hc, true_and] using h
    · simpa only [ho, hc, true_and] using hd.commitBy listing

end Holds

/-- Every open view holds what the map at its height has. -/
def Tracks (view : CoinView) (stack : Snapshots) : Prop :=
  Holds view stack.top ∧ List.Forall₂ Holds view.beneath stack.below

theorem Tracks.act {view : CoinView} {stack : Snapshots} (h : Tracks view stack)
    (action : Action) : Tracks (view.act action) (stack.act action) := by
  obtain ⟨top, below⟩ := stack
  obtain ⟨ht, hb⟩ := h
  cases action with
  | add point coin =>
    refine ⟨ht.addCoin point coin, ?_⟩
    rw [CoinView.act, beneath_addCoin]
    exact hb
  | spend point =>
    refine ⟨ht.spendCoin point, ?_⟩
    rw [CoinView.act, beneath_spendCoin]
    exact hb
  | update tx =>
    refine ⟨ht.update tx, ?_⟩
    rw [CoinView.act, beneath_update]
    exact hb
  | connect listing block =>
    refine ⟨(ht.connectBy listing block).2, ?_⟩
    rw [CoinView.act, beneath_connectBy]
    exact hb
  | layer =>
    exact ⟨ht.layer, List.Forall₂.cons ht hb⟩
  | commit listing =>
    refine ⟨ht.commitBy listing, ?_⟩
    rw [CoinView.act, CoinView.commitBy, beneath_applyEntries]
    cases view with
    | ledger coins =>
      cases hb
      exact List.Forall₂.nil
    | overlay parent changes =>
      cases hb with
      | cons _ hr => exact hr
  | drop =>
    cases view with
    | ledger coins =>
      cases hb
      exact ⟨ht, List.Forall₂.nil⟩
    | overlay parent changes =>
      cases hb with
      | cons hn hr => exact ⟨hn, hr⟩

theorem Tracks.run {view : CoinView} {stack : Snapshots} (h : Tracks view stack)
    (actions : List Action) : Tracks (view.run actions) (stack.run actions) := by
  induction actions generalizing view stack with
  | nil => exact h
  | cons action rest ih => exact ih (h.act action)

theorem tracks_run (coins : CoinMap) (actions : List Action) :
    Tracks ((ledger coins).run actions) (Snapshots.run ⟨coins.visible, []⟩ actions) :=
  Tracks.run ⟨holds_visible coins, List.Forall₂.nil⟩ actions

/-- The coin that an action puts in is not marked as spent. -/
def Action.AddsUnspent : Action → Prop
  | .add _ coin => coin.spent = false
  | _ => True

theorem unspent_base_of_beneath {v w : CoinView} (hb : v.beneath = w.beneath)
    (hw : w.beneath ≠ []) (h : w.base.Unspent) : v.base.Unspent := by
  have he := base_eq_of_beneath_eq hb (by rwa [hb])
  rwa [he]

theorem unspent_base_act {view : CoinView} (h : view.base.Unspent) {action : Action}
    (ha : action.AddsUnspent) : (view.act action).base.Unspent := by
  -- Above the ledger only a commit can reach it; the other actions keep the views beneath.
  cases view with
  | ledger coins =>
    have hc : coins.Unspent := h
    cases action with
    | add point coin => exact hc.insert point ha
    | spend point => exact hc.erase point
    | update tx =>
      rw [act, update_ledger]
      exact hc.update tx
    | connect listing block =>
      rw [act, connectBy_ledger]
      exact hc.connectInPlace block
    | layer => exact hc
    | commit listing =>
      rw [act, commitBy, CoinView.parent, applyEntries_ledger]
      exact hc.carryOut _
    | drop => exact hc
  | overlay parent changes =>
    have hn : (overlay parent changes).beneath ≠ [] := by simp [beneath]
    cases action with
    | add point coin =>
      have hb := beneath_addCoin (overlay parent changes) point coin
      exact unspent_base_of_beneath hb hn h
    | spend point =>
      have hb := beneath_spendCoin (overlay parent changes) point
      exact unspent_base_of_beneath hb hn h
    | update tx =>
      have hb := beneath_update (overlay parent changes) tx
      exact unspent_base_of_beneath hb hn h
    | connect listing block =>
      have hb := beneath_connectBy listing (overlay parent changes) block
      exact unspent_base_of_beneath hb hn h
    | layer => exact h
    | commit listing =>
      rw [act, commitBy]
      cases parent with
      | ledger coins =>
        have hc : coins.Unspent := h
        rw [CoinView.parent, applyEntries_ledger]
        exact hc.carryOut _
      | overlay lower under =>
        have hb := beneath_applyEntries (overlay lower under)
          (listing.entries (overlay (overlay lower under) changes).changes)
        exact unspent_base_of_beneath hb (by simp [beneath]) h
    | drop => exact h

theorem unspent_base_run {view : CoinView} (h : view.base.Unspent) {actions : List Action}
    (ha : ∀ action ∈ actions, action.AddsUnspent) : (view.run actions).base.Unspent := by
  induction actions generalizing view with
  | nil => exact h
  | cons action rest ih =>
    exact ih (unspent_base_act h (ha action List.mem_cons_self))
      fun other hm => ha other (List.mem_cons_of_mem action hm)

theorem depth_commitBy (listing : Listing) (view : CoinView) :
    (view.commitBy listing).depth = view.depth - 1 := by
  rw [← length_beneath, commitBy, beneath_applyEntries]
  cases view with
  | ledger coins => rfl
  | overlay parent changes =>
    rw [CoinView.parent, length_beneath, depth, Nat.add_sub_cancel]

theorem depth_run_commits (listings : List Listing) (view : CoinView) :
    (view.run (listings.map .commit)).depth = view.depth - listings.length := by
  induction listings generalizing view with
  | nil => rfl
  | cons listing rest ih =>
    have hr := ih (view.commitBy listing)
    rw [depth_commitBy] at hr
    rw [List.length_cons]
    exact hr.trans (by omega)

theorem top_run_commits (listings : List Listing) (stack : Snapshots) :
    (stack.run (listings.map .commit)).top = stack.top := by
  induction listings generalizing stack with
  | nil => rfl
  | cons listing rest ih => exact ih (stack.act (.commit listing))

/-- Without a spent coin at the start or among those added, the ledger under the last commit is the
topmost map itself. -/
theorem run_commits_eq {coins : CoinMap} (hc : coins.Unspent) {actions : List Action}
    (ha : ∀ action ∈ actions, action.AddsUnspent) {listings : List Listing}
    (hl : listings.length = ((ledger coins).run actions).depth) :
    ((ledger coins).run actions).run (listings.map .commit)
      = ledger (Snapshots.run ⟨coins.visible, []⟩ actions).top := by
  have hb : (ledger coins).base.Unspent := hc
  have hu := unspent_base_run hb ha
  have hm : ∀ action ∈ listings.map Action.commit, action.AddsUnspent := by
    intro action h
    obtain ⟨listing, _, rfl⟩ := List.mem_map.mp h
    trivial
  have hs := unspent_base_run hu hm
  have hd := depth_run_commits listings ((ledger coins).run actions)
  have ht := ((tracks_run coins actions).run (listings.map .commit)).1
  rw [top_run_commits] at ht
  rw [hl, Nat.sub_self] at hd
  cases hv : ((ledger coins).run actions).run (listings.map .commit) with
  | overlay parent changes =>
    rw [hv, depth] at hd
    cases hd
  | ledger after =>
    rw [hv] at hs ht
    have ha : after.Unspent := hs
    congr 1
    apply ExtTreeMap.ext_getElem?
    intro point
    rw [← coin?_ledger_of_unspent ha, ht point]

/-- For every sequence of actions on a ledger, each open view finds at every place what its plain
map has there, a block meets the same verdict on both, and after all is committed the ledger is the
topmost map, entry for entry. The maps do not depend on any order of changes, so neither does what
the views answer. -/
theorem overlays_nest_as_snapshots (coins : CoinMap) (actions : List Action) :
    List.Forall₂ Holds ((ledger coins).run actions).levels
        ((Snapshots.run ⟨coins.visible, []⟩ actions).top
          :: (Snapshots.run ⟨coins.visible, []⟩ actions).below)
      ∧ (∀ listing block, (((ledger coins).run actions).connectBy listing block).1
          = ((Snapshots.run ⟨coins.visible, []⟩ actions).top.connectInPlace block).1)
      ∧ (coins.Unspent → (∀ action ∈ actions, action.AddsUnspent) → ∀ listings : List Listing,
          listings.length = ((ledger coins).run actions).depth →
          ((ledger coins).run actions).run (listings.map .commit)
            = ledger (Snapshots.run ⟨coins.visible, []⟩ actions).top) := by
  obtain ⟨ht, hb⟩ := tracks_run coins actions
  refine ⟨List.Forall₂.cons ht hb, ?_, ?_⟩
  · intro listing block
    exact (ht.connectBy listing block).1
  · intro hc ha listings hl
    exact run_commits_eq hc ha hl

/-- A coin is spent on an overlay and put back on one above it, another is made on the first and
spent on the second, and a block goes on top. -/
def nestedSpends : List Action :=
  [.add ⟨sha256 [1], 0⟩ ⟨⟨7, []⟩, false, false⟩, .layer,
    .spend ⟨sha256 [1], 0⟩, .add ⟨sha256 [2], 0⟩ ⟨⟨8, []⟩, false, false⟩, .layer,
    .add ⟨sha256 [1], 0⟩ ⟨⟨9, []⟩, false, false⟩, .spend ⟨sha256 [2], 0⟩,
    .connect .descending (Block.assemble [] 50 [] (sha256 []) 0)]

theorem nestedSpends_commits :
    ((ledger ∅).run nestedSpends).depth = 2
      ∧ ((ledger ∅).run nestedSpends).run [.commit .descending, .commit .sorted]
        = ledger (Snapshots.run ⟨CoinMap.visible ∅, []⟩ nestedSpends).top := by
  have hd : ((ledger ∅).run nestedSpends).depth = 2 := by
    rw [← length_beneath]
    simp [nestedSpends, CoinView.run, act, beneath_connectBy, beneath_spendCoin, beneath_addCoin,
      layer, beneath]
  refine ⟨hd, (overlays_nest_as_snapshots ∅ nestedSpends).2.2 ?_ ?_ [.descending, .sorted] ?_⟩
  · intro point coin hc
    simp at hc
  · simp [nestedSpends, Action.AddsUnspent]
  · rw [hd]
    rfl

end CoinLedger
