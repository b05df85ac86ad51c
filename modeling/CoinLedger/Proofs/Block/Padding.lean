import Mathlib.Algebra.Ring.Parity
import CoinLedger.Proofs.Block.TopDown

/-! The leaves of a padded tree. Where a list does not fill its half of the tree, that half stands
there twice, so that the leaves are the list and then copies of what stands at its end. Of these
leaves, and only of them, the root is a function; and unless digests collide, it is a function that
tells them apart. A list of which a part of the padding is spelled out therefore keeps its root,
while two lists of one length never share one. -/
namespace CoinLedger

/-- What stands in the `2 ^ depth` places of the tree from the top: a list that fits into the left
half is put into both halves. -/
def padded : Nat → List α → List α
  | 0, items => items
  | depth + 1, items =>
    if items.length ≤ 2 ^ depth then padded depth items ++ padded depth items
    else padded depth (items.take (2 ^ depth)) ++ padded depth (items.drop (2 ^ depth))

section Padded
variable {depth : Nat} {items : List α}

theorem padded_of_fits (h : items.length ≤ 2 ^ depth) :
    padded (depth + 1) items = padded depth items ++ padded depth items :=
  if_pos h

theorem padded_of_exceeds (h : 2 ^ depth < items.length) : padded (depth + 1) items
    = padded depth (items.take (2 ^ depth)) ++ padded depth (items.drop (2 ^ depth)) :=
  if_neg (Nat.not_le.mpr h)

theorem padded_nil (depth : Nat) : padded depth ([] : List α) = [] := by
  induction depth with
  | zero => rfl
  | succ depth ih => rw [padded_of_fits (Nat.zero_le _), ih, List.append_nil]

theorem length_padded (hne : items ≠ []) (h : items.length ≤ 2 ^ depth) :
    (padded depth items).length = 2 ^ depth := by
  induction depth generalizing items with
  | zero => exact Nat.le_antisymm h (List.length_pos_iff.mpr hne)
  | succ depth ih =>
    rw [Nat.pow_succ, Nat.mul_two] at *
    obtain hfits | hexceeds := le_or_gt items.length (2 ^ depth)
    · rw [padded_of_fits hfits, List.length_append, ih hne hfits]
    · have htake : (items.take (2 ^ depth)).length = 2 ^ depth :=
        List.length_take_of_le hexceeds.le
      have hdrop : (items.drop (2 ^ depth)).length ≤ 2 ^ depth := by
        rw [List.length_drop]
        omega
      have hfirst : items.take (2 ^ depth) ≠ [] := List.ne_nil_of_length_pos (by omega)
      have hrest : items.drop (2 ^ depth) ≠ [] := by
        rw [ne_eq, List.drop_eq_nil_iff]
        omega
      rw [padded_of_exceeds hexceeds, List.length_append, ih hfirst htake.le, ih hrest hdrop]

theorem even_length_padded (h : items.length ≤ 2 ^ (depth + 1)) :
    Even (padded (depth + 1) items).length := by
  by_cases hne : items = []
  · rw [hne, padded_nil]
    exact Even.zero
  · rw [length_padded hne h]
    exact even_two.pow_of_ne_zero (Nat.succ_ne_zero depth)

/-- Padding only puts something behind the list. -/
theorem prefix_padded (h : items.length ≤ 2 ^ depth) : items <+: padded depth items := by
  induction depth generalizing items with
  | zero => exact List.prefix_rfl
  | succ depth ih =>
    obtain hfits | hexceeds := le_or_gt items.length (2 ^ depth)
    · rw [padded_of_fits hfits]
      exact (ih hfits).trans (List.prefix_append _ _)
    · have htake : (items.take (2 ^ depth)).length = 2 ^ depth :=
        List.length_take_of_le hexceeds.le
      have hne : items.take (2 ^ depth) ≠ [] := List.ne_nil_of_length_pos (by omega)
      -- A half that is full has no room for anything behind it.
      have hfull : items.take (2 ^ depth) = padded depth (items.take (2 ^ depth)) := by
        apply (ih htake.le).eq_of_length
        rw [length_padded hne htake.le, htake]
      have hdrop : (items.drop (2 ^ depth)).length ≤ 2 ^ depth := by
        rw [List.length_drop]
        omega
      rw [padded_of_exceeds hexceeds, ← hfull]
      conv_lhs => rw [← List.take_append_drop (2 ^ depth) items]
      exact (List.prefix_append_right_inj _).mpr (ih hdrop)

/-- Padded lists of one length are equal only if the lists are. -/
theorem eq_of_padded_eq {others : List α} (h : items.length ≤ 2 ^ depth)
    (hl : items.length = others.length) (he : padded depth items = padded depth others) :
    items = others := by
  obtain ⟨after, ha⟩ := prefix_padded h
  obtain ⟨rest, hr⟩ := prefix_padded (hl ▸ h)
  exact (List.append_inj (ha.trans (he.trans hr.symm)) hl).1

theorem mem_of_mem_padded {item : α} (h : item ∈ padded depth items) : item ∈ items := by
  induction depth generalizing items with
  | zero => exact h
  | succ depth ih =>
    obtain hfits | hexceeds := le_or_gt items.length (2 ^ depth)
    · rw [padded_of_fits hfits, List.mem_append, or_self] at h
      exact ih h
    · rw [padded_of_exceeds hexceeds, List.mem_append] at h
      cases h with
      | inl hl => exact List.mem_of_mem_take (ih hl)
      | inr hr => exact List.mem_of_mem_drop (ih hr)

theorem padded_map (f : α → β) : padded depth (items.map f) = (padded depth items).map f := by
  induction depth generalizing items with
  | zero => rfl
  | succ depth ih =>
    obtain hfits | hexceeds := le_or_gt items.length (2 ^ depth)
    · rw [padded_of_fits hfits, padded_of_fits (by rwa [List.length_map]), ih, List.map_append]
    · rw [padded_of_exceeds hexceeds, padded_of_exceeds (by rwa [List.length_map]),
        ← List.map_take, ← List.map_drop, ih, ih, List.map_append]

end Padded

theorem even_length_cons_cons {left right : α} {rest : List α} :
    Even (left :: right :: rest).length ↔ Even rest.length := by
  rw [List.length_cons, List.length_cons, Nat.even_add_one, Nat.even_add_one, not_not]

section Pairs
variable {front back hashes others : List Hash}

/-- At an even place a level parts into the levels of its parts. -/
theorem levelPreimages_append (h : Even front.length) :
    levelPreimages (front ++ back) = levelPreimages front ++ levelPreimages back := by
  obtain ⟨count, hcount⟩ := h
  rw [← Nat.two_mul] at hcount
  rw [← List.take_append_drop count (levelPreimages (front ++ back)), ← levelPreimages_take,
    ← levelPreimages_drop, List.take_left' hcount, List.drop_left' hcount]

theorem merkleLevel_append (h : Even front.length) :
    merkleLevel (front ++ back) = merkleLevel front ++ merkleLevel back := by
  rw [merkleLevel_eq_map, levelPreimages_append h, List.map_append, ← merkleLevel_eq_map,
    ← merkleLevel_eq_map]

/-- In a list without a digest left over, the pairs say what the digests are. -/
theorem eq_of_levelPreimages_eq (h : Even hashes.length) (ho : Even others.length)
    (he : levelPreimages hashes = levelPreimages others) : hashes = others := by
  induction hashes using levelPreimages.induct generalizing others with
  | case1 => exact (levelPreimages_eq_nil_iff.mp he.symm).symm
  | case2 last => exact absurd h Nat.not_even_one
  | case3 left right rest ih =>
    cases others with
    | nil => cases he
    | cons a back =>
      cases back with
      | nil => exact absurd ho Nat.not_even_one
      | cons b back =>
        rw [levelPreimages, levelPreimages, List.cons.injEq] at he
        obtain ⟨rfl, rfl⟩ := pair_inj he.1
        rw [ih (even_length_cons_cons.mp h) (even_length_cons_cons.mp ho) he.2]

theorem length_levelPreimages (hashes : List Hash) :
    (levelPreimages hashes).length = (hashes.length + 1) / 2 := by
  rw [← length_merkleLevel, merkleLevel_eq_map, List.length_map]

/-- One level up, the padded tree is the tree over the padded level. -/
theorem levelPreimages_padded (depth : Nat) (hashes : List Hash) :
    levelPreimages (padded (depth + 1) hashes) = padded depth (levelPreimages hashes) := by
  induction depth generalizing hashes with
  | zero =>
    match hashes with
    | [] => rfl
    | [last] => rfl
    | left :: right :: rest => rfl
  | succ depth ih =>
    have hlength := length_levelPreimages hashes
    have hpow : 2 ^ (depth + 1) = 2 * 2 ^ depth := Nat.pow_succ'
    obtain hfits | hexceeds := le_or_gt hashes.length (2 ^ (depth + 1))
    · rw [padded_of_fits hfits, levelPreimages_append (even_length_padded hfits), ih,
        padded_of_fits (by omega)]
    · have htake : (hashes.take (2 ^ (depth + 1))).length = 2 ^ (depth + 1) :=
        List.length_take_of_le hexceeds.le
      rw [padded_of_exceeds hexceeds, levelPreimages_append (even_length_padded htake.le), ih, ih,
        hpow, levelPreimages_take, levelPreimages_drop, padded_of_exceeds (by omega)]

theorem merkleLevel_padded (depth : Nat) (hashes : List Hash) :
    merkleLevel (padded (depth + 1) hashes) = padded depth (merkleLevel hashes) := by
  rw [merkleLevel_eq_map, levelPreimages_padded, merkleLevel_eq_map, padded_map]

end Pairs

section Roots
variable {hashes l m : List Hash}

theorem topDownRoot?_padded (depth : Nat) (hashes : List Hash) :
    topDownRoot? depth (padded depth hashes) = topDownRoot? depth hashes := by
  induction depth generalizing hashes with
  | zero => rfl
  | succ depth ih => rw [topDownRoot?_succ, merkleLevel_padded, ih, topDownRoot?_succ]

theorem length_le_pow_clog (hashes : List Hash) :
    hashes.length ≤ 2 ^ Nat.clog 2 hashes.length :=
  Nat.le_pow_clog Nat.one_lt_two _

theorem merkleRoot?_padded (hne : hashes ≠ []) :
    merkleRoot? (padded (Nat.clog 2 hashes.length) hashes) = merkleRoot? hashes := by
  rw [merkleRoot?_eq_topDownRoot?, length_padded hne (length_le_pow_clog hashes),
    Nat.clog_pow 2 _ Nat.one_lt_two, topDownRoot?_padded, merkleRoot?_eq_topDownRoot?]

/-- Lists with one padded level above them have one padded tree. -/
theorem padded_eq_of_merkleLevel {depth : Nat} (hl : l.length ≤ 2 ^ (depth + 1))
    (hm : m.length ≤ 2 ^ (depth + 1)) (hs : CollisionFree (levelPreimages l ++ levelPreimages m))
    (h : padded depth (merkleLevel l) = padded depth (merkleLevel m)) :
    padded (depth + 1) l = padded (depth + 1) m := by
  have hpairs : padded depth (levelPreimages l) = padded depth (levelPreimages m) := by
    rw [merkleLevel_eq_map, merkleLevel_eq_map, padded_map, padded_map] at h
    apply eq_of_map_eq _ h
    intro a ha b hb
    exact hs a (List.mem_append_left _ (mem_of_mem_padded ha)) b
      (List.mem_append_right _ (mem_of_mem_padded hb))
  apply eq_of_levelPreimages_eq (even_length_padded hl) (even_length_padded hm)
  rw [levelPreimages_padded, levelPreimages_padded, hpairs]

theorem padded_eq_of_merkleRoot?_eq (hl : l ≠ []) (hm : m ≠ [])
    (hd : Nat.clog 2 l.length = Nat.clog 2 m.length)
    (hs : CollisionFree (merklePreimages l ++ merklePreimages m))
    (h : merkleRoot? l = merkleRoot? m) :
    padded (Nat.clog 2 l.length) l = padded (Nat.clog 2 m.length) m := by
  refine related_of_merkleRoot?_eq (motive := fun l m =>
    padded (Nat.clog 2 l.length) l = padded (Nat.clog 2 m.length) m) ?_ ?_ hl hm hd hs h
  · intro root
    rfl
  · intro l m htwol htwom hd hlevel ha
    have hfitl := length_le_pow_clog l
    have hfitm := length_le_pow_clog m
    rw [← hd] at hfitm ⊢
    rw [clog_length_merkleLevel htwol, clog_length_merkleLevel htwom] at hd
    rw [clog_length_merkleLevel htwol] at hfitl hfitm ⊢
    rw [← Nat.succ.inj hd] at ha
    exact padded_eq_of_merkleLevel hfitl hfitm hlevel ha

theorem merkleRoot?_append {front back : List Hash} (htwo : 2 ≤ front.length)
    (heven : Even front.length) :
    merkleRoot? (front ++ back) = merkleRoot? (merkleLevel front ++ merkleLevel back) := by
  have h : 2 ≤ (front ++ back).length := by
    rw [List.length_append]
    omega
  rw [merkleRoot?_eq_of_two_le h, merkleLevel_append heven]

/-- Behind an even number of blocks of its width, a block and its copy go up level by level until they
are one digest twice, which is what the next level makes of that digest alone. -/
theorem merkleRoot?_repeat_block {front block : List Hash} {k pairs : Nat} (hp : 0 < pairs)
    (hf : front.length = 2 * pairs * 2 ^ k) (hb : block.length = 2 ^ k) :
    merkleRoot? (front ++ (block ++ block)) = merkleRoot? (front ++ block) := by
  induction k generalizing front block with
  | zero =>
    have htwo : 2 ≤ front.length := by omega
    have heven : Even front.length := ⟨pairs, by omega⟩
    obtain ⟨last, rfl⟩ := List.length_eq_one_iff.mp hb
    rw [merkleRoot?_append htwo heven, merkleRoot?_append htwo heven]
    rfl
  | succ k ih =>
    have hpos : 0 < 2 * pairs * 2 ^ k := Nat.mul_pos (by omega) (Nat.two_pow_pos k)
    rw [Nat.pow_succ, ← Nat.mul_assoc] at hf
    rw [Nat.pow_succ] at hb
    have htwo : 2 ≤ front.length := by omega
    have hfront : Even front.length := ⟨2 * pairs * 2 ^ k, by omega⟩
    have hblock : Even block.length := ⟨2 ^ k, by omega⟩
    have hupf : (merkleLevel front).length = 2 * pairs * 2 ^ k := by
      rw [length_merkleLevel]
      omega
    have hupb : (merkleLevel block).length = 2 ^ k := by
      rw [length_merkleLevel]
      omega
    rw [merkleRoot?_append htwo hfront, merkleRoot?_append htwo hfront, merkleLevel_append hblock]
    exact ih hupf hupb

end Roots

/-- A list of whole blocks of `2 ^ k` digests, an odd number of blocks and more than one, keeps its
root if the last block is put behind it once more. -/
theorem last_block_again {k m : Nat} {hashes : List Hash} (hodd : Odd m) (hm : 1 < m)
    (hl : hashes.length = m * 2 ^ k) :
    ∃ root, merkleRoot? hashes = some root
      ∧ merkleRoot? (hashes ++ hashes.drop (hashes.length - 2 ^ k)) = some root := by
  obtain ⟨pairs, rfl⟩ := hodd
  have hpos : 0 < 2 ^ k := Nat.two_pow_pos k
  rw [Nat.add_mul, Nat.one_mul] at hl
  have hplace : hashes.length - 2 ^ k = 2 * pairs * 2 ^ k := by omega
  have hfront : (hashes.take (2 * pairs * 2 ^ k)).length = 2 * pairs * 2 ^ k :=
    List.length_take_of_le (by omega)
  have hblock : (hashes.drop (2 * pairs * 2 ^ k)).length = 2 ^ k := by
    rw [List.length_drop]
    omega
  have hsome : (merkleRoot? hashes).isSome = true := by
    have hne : hashes ≠ [] := List.ne_nil_of_length_pos (by omega)
    simpa [isSome_merkleRoot?] using hne
  obtain ⟨root, hr⟩ := Option.isSome_iff_exists.mp hsome
  refine ⟨root, hr, ?_⟩
  have hagain := merkleRoot?_repeat_block (by omega) hfront hblock
  rw [← List.append_assoc, List.take_append_drop] at hagain
  rw [hplace, hagain, hr]

/-- The digest that has this byte in all places. -/
def uniform (byte : UInt8) : Hash :=
  ⟨List.replicate 32 byte, List.length_replicate⟩

/-- Twelve digests, which are three blocks of four. -/
def twelveLeaves : List Hash :=
  (List.range 12).map fun n => uniform (UInt8.ofNat n)

theorem twelveLeaves_last_four_again : Odd 3 ∧ 1 < 3 ∧ twelveLeaves.length = 3 * 2 ^ 2
    ∧ ∃ root, merkleRoot? twelveLeaves = some root
      ∧ merkleRoot? (twelveLeaves ++ twelveLeaves.drop 8) = some root := by
  have hodd : Odd 3 := by decide
  have hl : twelveLeaves.length = 3 * 2 ^ 2 := by simp [twelveLeaves]
  obtain ⟨root, hr, ha⟩ := last_block_again hodd (by decide) hl
  rw [hl] at ha
  exact ⟨hodd, by decide, hl, root, hr, ha⟩

/-- The root of a list stands for the leaves of its padded tree: for these and for no others, unless
digests collide, and so for no other list of as many digests. -/
theorem root_binds_padded :
    (∀ hashes : List Hash, hashes ≠ [] →
        hashes <+: padded (Nat.clog 2 hashes.length) hashes
          ∧ (padded (Nat.clog 2 hashes.length) hashes).length = 2 ^ Nat.clog 2 hashes.length
          ∧ merkleRoot? (padded (Nat.clog 2 hashes.length) hashes) = merkleRoot? hashes)
      ∧ (∀ l m : List Hash, l ≠ [] → m ≠ [] → Nat.clog 2 l.length = Nat.clog 2 m.length →
        CollisionFree (merklePreimages l ++ merklePreimages m) →
        (merkleRoot? l = merkleRoot? m
          ↔ padded (Nat.clog 2 l.length) l = padded (Nat.clog 2 m.length) m))
      ∧ ∀ l m : List Hash, l.length = m.length →
        CollisionFree (merklePreimages l ++ merklePreimages m) →
        merkleRoot? l = merkleRoot? m → l = m := by
  refine ⟨?_, ?_, ?_⟩
  · intro hashes hne
    exact ⟨prefix_padded (length_le_pow_clog hashes),
      length_padded hne (length_le_pow_clog hashes), merkleRoot?_padded hne⟩
  · intro l m hl hm hd hs
    constructor
    · intro h
      exact padded_eq_of_merkleRoot?_eq hl hm hd hs h
    · intro h
      rw [← merkleRoot?_padded hl, h, merkleRoot?_padded hm]
  · intro l m hlen hs h
    by_cases hl : l = []
    · subst hl
      exact (List.length_eq_zero_iff.mp hlen.symm).symm
    · have hm : m ≠ [] := by
        rintro rfl
        exact hl (List.length_eq_zero_iff.mp hlen)
      have hp := padded_eq_of_merkleRoot?_eq hl hm (by rw [hlen]) hs h
      rw [← hlen] at hp
      exact eq_of_padded_eq (length_le_pow_clog l) hlen hp

def threeLeaves : List Hash :=
  [uniform 0, uniform 1, uniform 2]

/-- Three digests have the padded tree of four, but two digests in another order have another root. -/
theorem threeLeaves_bound :
    padded 2 threeLeaves = padded 2 (threeLeaves ++ [uniform 2])
      ∧ merkleRoot? [uniform 0, uniform 1] ≠ merkleRoot? [uniform 1, uniform 0] := by
  obtain ⟨_, hbind, hlist⟩ := root_binds_padded
  constructor
  · have hsame : merklePreimages (threeLeaves ++ [uniform 2]) = merklePreimages threeLeaves := by
      simp [threeLeaves, merklePreimages, levelPreimages, merkleLevel]
    have hthree : CollisionFree (merklePreimages threeLeaves) := by
      rw [CollisionFree]
      decide +kernel
    have hs : CollisionFree (merklePreimages threeLeaves
        ++ merklePreimages (threeLeaves ++ [uniform 2])) := by
      rw [hsame]
      exact hthree.mono fun _ h => (List.mem_append.mp h).elim id id
    have hr : merkleRoot? threeLeaves = merkleRoot? (threeLeaves ++ [uniform 2]) := by
      simp [threeLeaves, merkleRoot?, merkleLevel]
    exact (hbind _ _ (by simp [threeLeaves]) (by simp) (by decide) hs).mp hr
  · intro h
    have hs : CollisionFree (merklePreimages [uniform 0, uniform 1]
        ++ merklePreimages [uniform 1, uniform 0]) := by
      rw [CollisionFree]
      decide +kernel
    have he := hlist _ _ (by simp) hs h
    have hfirst : uniform 0 = uniform 1 := (List.cons.inj he).1
    revert hfirst
    decide

end CoinLedger
