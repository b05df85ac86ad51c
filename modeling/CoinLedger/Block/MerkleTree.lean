import CoinLedger.Digest.Sha256

/-! The Merkle root of a list of digests, level by level. At each level a digest without a partner
is paired with itself; `isSome_merkleRoot?` says which lists have a root. -/
namespace CoinLedger

def merkleNode (left right : Hash) : Hash :=
  sha256 (left.bytes ++ right.bytes)

/-- The next level: one digest for each pair. -/
def merkleLevel : List Hash → List Hash
  | [] => []
  | [last] => [merkleNode last last]
  | left :: right :: rest => merkleNode left right :: merkleLevel rest

theorem length_merkleLevel (hashes : List Hash) :
    (merkleLevel hashes).length = (hashes.length + 1) / 2 := by
  fun_induction merkleLevel hashes with
  | case1 => rfl
  | case2 => simp only [List.length_cons, List.length_nil]
  | case3 left right rest ih => simp only [List.length_cons, ih]; omega

/-- The single digest that the levels end in; an empty list has none. -/
def merkleRoot? : List Hash → Option Hash
  | [] => none
  | [root] => some root
  | left :: right :: rest => merkleRoot? (merkleNode left right :: merkleLevel rest)
termination_by hashes => hashes.length
decreasing_by simp only [List.length_cons, length_merkleLevel]; omega

theorem isSome_merkleRoot? (hashes : List Hash) : (merkleRoot? hashes).isSome = !hashes.isEmpty := by
  fun_induction merkleRoot? hashes with
  | case1 => rfl
  | case2 => rfl
  | case3 left right rest ih => simpa using ih

end CoinLedger
