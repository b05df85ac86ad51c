import Mathlib.Data.Nat.Log
import CoinLedger.Block.MerkleTree

/-! How far a Merkle root binds the list below it. A level with a digest left over pairs it with
itself, so a list and a longer one that spells out such pairs can have one root. But then the longer
list repeats itself: somewhere a segment is followed by its copy. What repeats itself at one level
does so at every level below, and where two lists part they part in this way. -/
namespace CoinLedger

/-- Different ones of these byte strings have different digests. -/
def CollisionFree (strings : List Bytes) : Prop :=
  ∀ a ∈ strings, ∀ b ∈ strings, sha256 a = sha256 b → a = b

theorem CollisionFree.mono {strings others : List Bytes} (h : CollisionFree strings)
    (hs : ∀ a ∈ others, a ∈ strings) : CollisionFree others :=
  fun a ha b hb he => h a (hs a ha) b (hs b hb) he

/-- Somewhere a segment is followed by its copy. -/
def Repeats (items : List α) : Prop :=
  ∃ front segment back, segment ≠ [] ∧ items = front ++ (segment ++ (segment ++ back))

section Lists
variable {items l m : List α}

theorem Repeats.within (h : Repeats items) (before after : List α) :
    Repeats (before ++ (items ++ after)) := by
  obtain ⟨front, segment, back, hs, rfl⟩ := h
  refine ⟨before ++ front, segment, back ++ after, hs, ?_⟩
  simp only [List.append_assoc]

theorem eq_of_map_eq {f : α → β} (hf : ∀ a ∈ l, ∀ b ∈ m, f a = f b → a = b)
    (h : l.map f = m.map f) : l = m := by
  induction l generalizing m with
  | nil => exact (List.map_eq_nil_iff.mp h.symm).symm
  | cons a rest ih =>
    cases m with
    | nil => cases h
    | cons b tail =>
      rw [List.map_cons, List.map_cons, List.cons.injEq] at h
      have hab := hf a List.mem_cons_self b List.mem_cons_self h.1
      have hr : rest = tail := by
        apply ih _ h.2
        intro c hc d hd
        exact hf c (List.mem_cons_of_mem a hc) d (List.mem_cons_of_mem b hd)
      rw [hab, hr]

theorem Repeats.of_map {f : α → β} (hf : ∀ a ∈ items, ∀ b ∈ items, f a = f b → a = b)
    (h : Repeats (items.map f)) : Repeats items := by
  obtain ⟨front, segment, back, hs, he⟩ := h
  obtain ⟨first, rest, rfl, _, hr⟩ := List.map_eq_append_iff.mp he
  obtain ⟨second, rest, rfl, hsecond, hr⟩ := List.map_eq_append_iff.mp hr
  obtain ⟨third, last, rfl, hthird, _⟩ := List.map_eq_append_iff.mp hr
  have hst : second = third := by
    apply eq_of_map_eq _ (hsecond.trans hthird.symm)
    intro a ha b hb
    exact hf a (by simp [ha]) b (by simp [hb])
  subst hst
  refine ⟨first, second, last, ?_, rfl⟩
  rintro rfl
  exact hs hsecond.symm

end Lists

/-- The byte strings whose digests are the next level. -/
def levelPreimages : List Hash → List Bytes
  | [] => []
  | [last] => [last.bytes ++ last.bytes]
  | left :: right :: rest => (left.bytes ++ right.bytes) :: levelPreimages rest

/-- All the byte strings that are hashed on the way from a list to its root. -/
def merklePreimages : List Hash → List Bytes
  | [] => []
  | [_] => []
  | left :: right :: rest =>
    levelPreimages (left :: right :: rest)
      ++ merklePreimages (merkleNode left right :: merkleLevel rest)
termination_by hashes => hashes.length
decreasing_by simp only [List.length_cons, length_merkleLevel]; omega

theorem merkleLevel_eq_map (hashes : List Hash) :
    merkleLevel hashes = (levelPreimages hashes).map sha256 := by
  fun_induction merkleLevel hashes with
  | case1 => rfl
  | case2 last => rfl
  | case3 left right rest ih => rw [levelPreimages, List.map_cons, ih, merkleNode]

theorem pair_inj {a b c d : Hash} (h : a.bytes ++ b.bytes = c.bytes ++ d.bytes) :
    a = c ∧ b = d := by
  have hl : a.bytes.length = c.bytes.length := by rw [a.length_bytes, c.length_bytes]
  obtain ⟨hac, hbd⟩ := List.append_inj h hl
  exact ⟨Digest.ext hac, Digest.ext hbd⟩

theorem levelPreimages_eq_nil_iff {hashes : List Hash} :
    levelPreimages hashes = [] ↔ hashes = [] := by
  match hashes with
  | [] => simp [levelPreimages]
  | [_] => simp [levelPreimages]
  | _ :: _ :: _ => simp [levelPreimages]

/-- A digest paired with itself and a pair spelled out. -/
theorem repeats_of_levelPreimages_single {last left right : Hash} {rest : List Hash}
    (h : levelPreimages [last] = levelPreimages (left :: right :: rest)) :
    Repeats (left :: right :: rest) := by
  rw [levelPreimages, levelPreimages, List.cons.injEq] at h
  obtain ⟨hl, hr⟩ := pair_inj h.1
  have he : rest = [] := levelPreimages_eq_nil_iff.mp h.2.symm
  refine ⟨[], [last], [], by simp, ?_⟩
  rw [← hl, ← hr, he]
  rfl

theorem eq_or_repeats_of_levelPreimages_eq {l m : List Hash}
    (h : levelPreimages l = levelPreimages m) : l = m ∨ Repeats l ∨ Repeats m := by
  induction l using levelPreimages.induct generalizing m with
  | case1 =>
    have hm : m = [] := levelPreimages_eq_nil_iff.mp h.symm
    exact Or.inl hm.symm
  | case2 last =>
    match m with
    | [] => simp [levelPreimages] at h
    | [other] =>
      have hp := pair_inj (List.cons.inj h).1
      exact Or.inl (by rw [hp.1])
    | left :: right :: rest => exact Or.inr (Or.inr (repeats_of_levelPreimages_single h))
  | case3 left right rest ih =>
    match m with
    | [] => simp [levelPreimages] at h
    | [other] => exact Or.inr (Or.inl (repeats_of_levelPreimages_single h.symm))
    | a :: b :: tail =>
      rw [levelPreimages, levelPreimages, List.cons.injEq] at h
      obtain ⟨rfl, rfl⟩ := pair_inj h.1
      obtain he | hl | hm := ih h.2
      · exact Or.inl (by rw [he])
      · have hr := hl.within [left, right] []
        rw [List.append_nil] at hr
        exact Or.inr (Or.inl hr)
      · have hr := hm.within [left, right] []
        rw [List.append_nil] at hr
        exact Or.inr (Or.inr hr)

/-- A level parts where the level above it parts. -/
theorem exists_append_of_levelPreimages {l : List Hash} {u v : List Bytes}
    (h : levelPreimages l = u ++ v) :
    ∃ front back, l = front ++ back ∧ levelPreimages front = u ∧ levelPreimages back = v := by
  induction l using levelPreimages.induct generalizing u with
  | case1 =>
    obtain ⟨rfl, rfl⟩ := List.append_eq_nil_iff.mp h.symm
    exact ⟨[], [], rfl, rfl, rfl⟩
  | case2 last =>
    cases u with
    | nil => exact ⟨[], [last], rfl, rfl, h⟩
    | cons a rest =>
      rw [levelPreimages, List.cons_append, List.cons.injEq] at h
      obtain ⟨rfl, rfl⟩ := List.append_eq_nil_iff.mp h.2.symm
      exact ⟨[last], [], rfl, by rw [levelPreimages, h.1], rfl⟩
  | case3 left right rest ih =>
    cases u with
    | nil => exact ⟨[], left :: right :: rest, rfl, rfl, h⟩
    | cons a tail =>
      rw [levelPreimages, List.cons_append, List.cons.injEq] at h
      obtain ⟨front, back, rfl, hf, hb⟩ := ih h.2
      exact ⟨left :: right :: front, back, rfl, by rw [levelPreimages, h.1, hf], hb⟩

theorem repeats_of_levelPreimages {l : List Hash} (h : Repeats (levelPreimages l)) :
    Repeats l := by
  obtain ⟨front, segment, back, hs, he⟩ := h
  obtain ⟨first, rest, rfl, _, hr⟩ := exists_append_of_levelPreimages he
  obtain ⟨second, rest, rfl, hsecond, hr⟩ := exists_append_of_levelPreimages hr
  obtain ⟨third, last, rfl, hthird, _⟩ := exists_append_of_levelPreimages hr
  obtain heq | hrep | hrep := eq_or_repeats_of_levelPreimages_eq (hsecond.trans hthird.symm)
  · subst heq
    refine ⟨first, second, last, ?_, rfl⟩
    rintro rfl
    exact hs hsecond.symm
  · exact hrep.within first (third ++ last)
  · have hw := hrep.within (first ++ second) last
    rwa [List.append_assoc] at hw

/-- What repeats itself at a level does so at the level below. -/
theorem repeats_of_merkleLevel {hashes : List Hash} (hs : CollisionFree (levelPreimages hashes))
    (h : Repeats (merkleLevel hashes)) : Repeats hashes := by
  rw [merkleLevel_eq_map] at h
  exact repeats_of_levelPreimages (h.of_map hs)

theorem eq_or_repeats_of_merkleLevel_eq {l m : List Hash}
    (hs : CollisionFree (levelPreimages l ++ levelPreimages m))
    (h : merkleLevel l = merkleLevel m) : l = m ∨ Repeats l ∨ Repeats m := by
  rw [merkleLevel_eq_map, merkleLevel_eq_map] at h
  apply eq_or_repeats_of_levelPreimages_eq
  apply eq_of_map_eq _ h
  intro a ha b hb
  exact hs a (List.mem_append_left _ ha) b (List.mem_append_right _ hb)

section Levels
variable {hashes : List Hash}

theorem merkleRoot?_eq_of_two_le (h : 2 ≤ hashes.length) :
    merkleRoot? hashes = merkleRoot? (merkleLevel hashes) := by
  match hashes with
  | [] => simp at h
  | [_] => simp at h
  | left :: right :: rest => rw [merkleRoot?, merkleLevel]

theorem merklePreimages_eq_of_two_le (h : 2 ≤ hashes.length) :
    merklePreimages hashes
      = levelPreimages hashes ++ merklePreimages (merkleLevel hashes) := by
  match hashes with
  | [] => simp at h
  | [_] => simp at h
  | left :: right :: rest => rw [merklePreimages, merkleLevel]

theorem merkleLevel_ne_nil (h : hashes ≠ []) : merkleLevel hashes ≠ [] := by
  rw [merkleLevel_eq_map]
  simpa [levelPreimages_eq_nil_iff] using h

theorem clog_length_merkleLevel (h : 2 ≤ hashes.length) :
    Nat.clog 2 hashes.length = Nat.clog 2 (merkleLevel hashes).length + 1 := by
  rw [Nat.clog_of_two_le Nat.one_lt_two h, length_merkleLevel]
  rfl

end Levels

theorem two_le_of_clog_pos {n : Nat} (h : 0 < Nat.clog 2 n) : 2 ≤ n := by
  by_contra hn
  have hz : Nat.clog 2 n = 0 := Nat.clog_of_right_le_one (by omega) 2
  omega

theorem length_eq_one_of_clog {hashes : List Hash} (hne : hashes ≠ [])
    (h : Nat.clog 2 hashes.length = 0) : hashes.length = 1 := by
  have hle := Nat.le_pow_clog Nat.one_lt_two hashes.length
  rw [h] at hle
  exact Nat.le_antisymm hle (List.length_pos_iff.mpr hne)

/-- The byte strings hashed on the way to two roots are those of the first levels and of the rest. -/
theorem CollisionFree.level {l m : List Hash} (hl : 2 ≤ l.length) (hm : 2 ≤ m.length)
    (h : CollisionFree (merklePreimages l ++ merklePreimages m)) :
    CollisionFree (levelPreimages l ++ levelPreimages m)
      ∧ CollisionFree (merklePreimages (merkleLevel l) ++ merklePreimages (merkleLevel m)) := by
  rw [merklePreimages_eq_of_two_le hl, merklePreimages_eq_of_two_le hm] at h
  constructor
  · apply h.mono
    grind
  · apply h.mono
    grind

/-- Two lists of one root and one number of levels: what holds of the root and itself, and goes down
from level to level, holds of the lists. -/
theorem related_of_merkleRoot?_eq {motive : List Hash → List Hash → Prop}
    (top : ∀ root, motive [root] [root])
    (down : ∀ l m, 2 ≤ l.length → 2 ≤ m.length → Nat.clog 2 l.length = Nat.clog 2 m.length →
      CollisionFree (levelPreimages l ++ levelPreimages m) →
      motive (merkleLevel l) (merkleLevel m) → motive l m)
    {l m : List Hash} (hl : l ≠ []) (hm : m ≠ [])
    (hd : Nat.clog 2 l.length = Nat.clog 2 m.length)
    (hs : CollisionFree (merklePreimages l ++ merklePreimages m))
    (h : merkleRoot? l = merkleRoot? m) : motive l m := by
  induction hdepth : Nat.clog 2 l.length generalizing l m with
  | zero =>
    obtain ⟨a, rfl⟩ := List.length_eq_one_iff.mp (length_eq_one_of_clog hl hdepth)
    obtain ⟨b, rfl⟩ := List.length_eq_one_iff.mp (length_eq_one_of_clog hm (hd ▸ hdepth))
    simp only [merkleRoot?, Option.some.injEq] at h
    rw [h]
    exact top b
  | succ depth ih =>
    have htwol : 2 ≤ l.length := two_le_of_clog_pos (by omega)
    have htwom : 2 ≤ m.length := two_le_of_clog_pos (by omega)
    obtain ⟨hlevel, habove⟩ := hs.level htwol htwom
    apply down l m htwol htwom hd hlevel
    rw [merkleRoot?_eq_of_two_le htwol, merkleRoot?_eq_of_two_le htwom] at h
    rw [clog_length_merkleLevel htwol] at hd hdepth
    rw [clog_length_merkleLevel htwom] at hd
    exact ih (merkleLevel_ne_nil hl) (merkleLevel_ne_nil hm) (Nat.succ.inj hd) habove h
      (Nat.succ.inj hdepth)

/-- Two lists of one root and one number of levels are equal, or one of them repeats itself. -/
theorem eq_or_repeats_of_merkleRoot?_eq {l m : List Hash} (hl : l ≠ []) (hm : m ≠ [])
    (hd : Nat.clog 2 l.length = Nat.clog 2 m.length)
    (hs : CollisionFree (merklePreimages l ++ merklePreimages m))
    (h : merkleRoot? l = merkleRoot? m) : l = m ∨ Repeats l ∨ Repeats m := by
  apply related_of_merkleRoot?_eq (motive := fun l m => l = m ∨ Repeats l ∨ Repeats m) _ _
    hl hm hd hs h
  · intro root
    exact Or.inl rfl
  · intro l m _ _ _ hlevel ha
    obtain he | hr | hr := ha
    · exact eq_or_repeats_of_merkleLevel_eq hlevel he
    · refine Or.inr (Or.inl (repeats_of_merkleLevel ?_ hr))
      exact hlevel.mono fun _ => List.mem_append_left _
    · refine Or.inr (Or.inr (repeats_of_merkleLevel ?_ hr))
      exact hlevel.mono fun _ => List.mem_append_right _

end CoinLedger
