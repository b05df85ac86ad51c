import Mathlib.Algebra.BigOperators.Group.List.Basic
import Mathlib.Algebra.Ring.Int.Defs
import CoinLedger.Ledger.Coin

/-! Exact sums over the entries of a coin map. Putting an entry in or taking one out changes a sum
by the weights of the new entry and of the one that was there. -/
namespace CoinLedger.CoinMap
open Std
variable (weight : Coin → Int)

/-- The sum of a weight over the entries of a map. -/
def total (coins : CoinMap) : Int := (coins.toList.map fun entry => weight entry.2).sum

def weightAt (coins : CoinMap) (point : OutPoint) : Int :=
  match coins[point]? with
  | none => 0
  | some coin => weight coin

theorem nodup_toList (coins : CoinMap) : coins.toList.Nodup :=
  (pairwise_toList coins).imp fun h he => h (by rw [he])

theorem toList_insert_perm (coins : CoinMap) (point : OutPoint) (coin : Coin) :
    (coins.insert point coin).toList.Perm ((point, coin) :: (coins.erase point).toList) := by
  have hn : ((point, coin) :: (coins.erase point).toList).Nodup := by
    refine List.nodup_cons.mpr ⟨?_, nodup_toList _⟩
    intro hm
    rw [ExtTreeMap.mem_toList_iff_getElem?_eq_some, ExtTreeMap.getElem?_erase_self] at hm
    cases hm
  refine (List.perm_ext_iff_of_nodup (nodup_toList _) hn).mpr ?_
  rintro ⟨other, found⟩
  rw [ExtTreeMap.mem_toList_iff_getElem?_eq_some, List.mem_cons,
    ExtTreeMap.mem_toList_iff_getElem?_eq_some]
  by_cases hp : point = other
  · subst hp
    simp [eq_comm]
  · have hq : other ≠ point := fun h => hp h.symm
    simp [ExtTreeMap.getElem?_insert, ExtTreeMap.getElem?_erase, hp, hq]

theorem total_insert_erase (coins : CoinMap) (point : OutPoint) (coin : Coin) :
    total weight (coins.insert point coin) = weight coin + total weight (coins.erase point) := by
  have hp := (toList_insert_perm coins point coin).map fun entry => weight entry.2
  rw [total, hp.sum_eq, List.map_cons, List.sum_cons, total]

theorem total_erase (coins : CoinMap) (point : OutPoint) :
    total weight (coins.erase point) = total weight coins - weightAt weight coins point := by
  rw [weightAt]
  cases hc : coins[point]? with
  | none =>
    have he : coins.erase point = coins := by
      apply ExtTreeMap.ext_getElem?
      intro other
      rw [ExtTreeMap.getElem?_erase]
      by_cases hp : point = other
      · simp [← hp, hc]
      · simp [hp]
    rw [he]
    simp
  | some coin =>
    have hi : coins.insert point coin = coins := by
      apply ExtTreeMap.ext_getElem?
      intro other
      rw [ExtTreeMap.getElem?_insert]
      by_cases hp : point = other
      · simp [← hp, hc]
      · simp [hp]
    have ht := total_insert_erase weight coins point coin
    rw [hi] at ht
    simp only [ht]
    omega

theorem total_insert (coins : CoinMap) (point : OutPoint) (coin : Coin) :
    total weight (coins.insert point coin)
      = total weight coins - weightAt weight coins point + weight coin := by
  rw [total_insert_erase, total_erase]
  omega

theorem weightAt_erase_of_ne (coins : CoinMap) {point other : OutPoint} (h : point ≠ other) :
    weightAt weight (coins.erase point) other = weightAt weight coins other := by
  have he : (coins.erase point)[other]? = coins[other]? := by
    simp [ExtTreeMap.getElem?_erase, h]
  rw [weightAt, weightAt, he]

/-- Distinct places are counted once each, at what they had in the beginning. -/
theorem total_eraseAll (coins : CoinMap) {points : List OutPoint} (hn : points.Nodup) :
    total weight (points.foldl (fun coins point => coins.erase point) coins)
      = total weight coins - (points.map (weightAt weight coins)).sum := by
  induction points generalizing coins with
  | nil => simp
  | cons point rest ih =>
    obtain ⟨hm, hr⟩ := List.nodup_cons.mp hn
    have hw : rest.map (weightAt weight (coins.erase point)) = rest.map (weightAt weight coins) := by
      apply List.map_congr_left
      intro other ho
      apply weightAt_erase_of_ne
      intro he
      exact hm (by rwa [he])
    rw [List.foldl_cons, ih (coins.erase point) hr, hw, total_erase, List.map_cons, List.sum_cons]
    omega

end CoinLedger.CoinMap
