import Mathlib.Algebra.Group.Nat.Defs
import CoinLedger.Proofs.Block.Repetition

/-! The Merkle root from the top. Over `2 ^ depth` places a tree parts in the middle: the first half
of the list stands on the left and the rest on the right, and a list that fits into the left half
stands on both sides. This is the same tree that the levels build from below, since a level parts
where the level above it parts, and the digest that has no partner is always the last one. -/
namespace CoinLedger

/-- The root of the tree over `2 ^ depth` places, if the list has a digest and not more of them. -/
def topDownRoot? : Nat → List Hash → Option Hash
  | 0, [hash] => some hash
  | 0, _ => none
  | depth + 1, hashes =>
    if hashes.length ≤ 2 ^ depth then do
      let half ← topDownRoot? depth hashes
      some (sha256 (half.bytes ++ half.bytes))
    else do
      let left ← topDownRoot? depth (hashes.take (2 ^ depth))
      let right ← topDownRoot? depth (hashes.drop (2 ^ depth))
      some (sha256 (left.bytes ++ right.bytes))

/-- The digests before an even place make up a level of their own. -/
theorem levelPreimages_take (hashes : List Hash) (count : Nat) :
    levelPreimages (hashes.take (2 * count)) = (levelPreimages hashes).take count := by
  induction count generalizing hashes with
  | zero => rfl
  | succ count ih =>
    rw [Nat.mul_succ]
    match hashes with
    | [] => rfl
    | [last] => simp [levelPreimages]
    | left :: right :: rest =>
      rw [List.take_succ_cons, List.take_succ_cons, levelPreimages, levelPreimages, ih,
        List.take_succ_cons]

/-- So do the digests from an even place on. -/
theorem levelPreimages_drop (hashes : List Hash) (count : Nat) :
    levelPreimages (hashes.drop (2 * count)) = (levelPreimages hashes).drop count := by
  induction count generalizing hashes with
  | zero => rfl
  | succ count ih =>
    rw [Nat.mul_succ]
    match hashes with
    | [] => rfl
    | [last] => simp [levelPreimages]
    | left :: right :: rest =>
      rw [List.drop_succ_cons, List.drop_succ_cons, ih, levelPreimages, List.drop_succ_cons]

theorem merkleLevel_take (hashes : List Hash) (count : Nat) :
    merkleLevel (hashes.take (2 * count)) = (merkleLevel hashes).take count := by
  rw [merkleLevel_eq_map, levelPreimages_take, List.map_take, ← merkleLevel_eq_map]

theorem merkleLevel_drop (hashes : List Hash) (count : Nat) :
    merkleLevel (hashes.drop (2 * count)) = (merkleLevel hashes).drop count := by
  rw [merkleLevel_eq_map, levelPreimages_drop, List.map_drop, ← merkleLevel_eq_map]

/-- One level built from below takes one level off the tree. -/
theorem topDownRoot?_succ (depth : Nat) (hashes : List Hash) :
    topDownRoot? (depth + 1) hashes = topDownRoot? depth (merkleLevel hashes) := by
  induction depth generalizing hashes with
  | zero =>
    match hashes with
    | [] => rfl
    | [last] => rfl
    | [left, right] => rfl
    | [left, right, last] => rfl
    | left :: right :: last :: other :: rest => rfl
  | succ depth ih =>
    have hfits : hashes.length ≤ 2 ^ (depth + 1) ↔ (merkleLevel hashes).length ≤ 2 ^ depth := by
      rw [length_merkleLevel, Nat.pow_succ]
      omega
    -- The whole list and both of its parts go down by one, so the hypothesis is for any list.
    conv_lhs => rw [topDownRoot?, ih, ih, ih]
    rw [topDownRoot?, ← merkleLevel_take, ← merkleLevel_drop, ← Nat.pow_succ']
    simp only [hfits]

/-- The tree over `2 ^ depth` places has a root exactly if so many levels end in one digest, and
then it is this one. -/
theorem topDownRoot?_eq_some_iff {depth : Nat} {hashes : List Hash} {root : Hash} :
    topDownRoot? depth hashes = some root ↔ merkleLevel^[depth] hashes = [root] := by
  induction depth generalizing hashes with
  | zero =>
    match hashes with
    | [] => simp [topDownRoot?]
    | [hash] => simp [topDownRoot?]
    | left :: right :: rest => simp [topDownRoot?]
  | succ depth ih => rw [topDownRoot?_succ, ih, Function.iterate_succ_apply]

/-- A level has more than one digest exactly if the list does not fit under one of them. -/
theorem one_lt_length_iterate_iff {level : Nat} {hashes : List Hash} :
    1 < (merkleLevel^[level] hashes).length ↔ 2 ^ level < hashes.length := by
  induction level generalizing hashes with
  | zero => rfl
  | succ level ih =>
    rw [Function.iterate_succ_apply, ih, length_merkleLevel, Nat.pow_succ]
    omega

theorem merkleRoot?_eq_topDownRoot? (hashes : List Hash) :
    merkleRoot? hashes = topDownRoot? (Nat.clog 2 hashes.length) hashes := by
  fun_induction merkleRoot? hashes with
  | case1 => rfl
  | case2 root => rfl
  | case3 left right rest ih =>
    have htwo : 2 ≤ (left :: right :: rest).length := by simp
    rw [ih, clog_length_merkleLevel htwo, topDownRoot?_succ]
    rfl

/-- The levels from below and the tree from the top have one root. -/
theorem levels_build_topDown :
    (∀ hashes : List Hash, hashes ≠ [] → ∃ root,
        topDownRoot? (Nat.clog 2 hashes.length) hashes = some root
          ∧ merkleRoot? hashes = some root
          ∧ merkleLevel^[Nat.clog 2 hashes.length] hashes = [root]
          ∧ ∀ level < Nat.clog 2 hashes.length, 1 < (merkleLevel^[level] hashes).length)
      ∧ ∀ hashes : List Hash, merkleRoot? hashes = none ↔ hashes = [] := by
  refine ⟨?_, ?_⟩
  · intro hashes hne
    have hs : (merkleRoot? hashes).isSome = true := by
      simp [isSome_merkleRoot?, hne]
    obtain ⟨root, hr⟩ := Option.isSome_iff_exists.mp hs
    have ht := hr
    rw [merkleRoot?_eq_topDownRoot?] at ht
    refine ⟨root, ht, hr, topDownRoot?_eq_some_iff.mp ht, ?_⟩
    intro level hl
    exact one_lt_length_iterate_iff.mpr ((Nat.lt_clog_iff_pow_lt Nat.one_lt_two).mp hl)
  · intro hashes
    rw [← Option.not_isSome_iff_eq_none, isSome_merkleRoot?]
    simp

/-- One digest is left over at the first level, and one at the second. -/
def fiveLeaves : List Hash :=
  [sha256 [0], sha256 [1], sha256 [2], sha256 [3], sha256 [4]]

theorem fiveLeaves_root :
    let above (left right : Hash) : Hash := sha256 (left.bytes ++ right.bytes)
    let last := above (sha256 [4]) (sha256 [4])
    merkleRoot? fiveLeaves = some (above
      (above (above (sha256 [0]) (sha256 [1])) (above (sha256 [2]) (sha256 [3])))
      (above last last)) := by
  have hne : fiveLeaves ≠ [] := by simp [fiveLeaves]
  have hd : Nat.clog 2 fiveLeaves.length = 3 := by decide
  obtain ⟨root, ht, hr, _⟩ := levels_build_topDown.1 fiveLeaves hne
  rw [hd] at ht
  rw [hr, ← ht]
  rfl

end CoinLedger
