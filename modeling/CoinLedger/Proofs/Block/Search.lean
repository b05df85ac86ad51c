import CoinLedger.Block.Mining

/-! The search for a nonce is exact. It finds the first nonce that makes a hash with enough zeros, if
the attempts get to one, and otherwise stops where they end or at the largest nonce, past which it
never goes. So the attempts can be made in two parts: a search that has found nothing goes on from
where it stopped as if it had not stopped there. -/
namespace CoinLedger

/-- The attempts get to this nonce, and it makes a hash with so many zeros. -/
def Header.Hits (header : Header) (zeros attempts : Nat) (nonce : UInt64) : Prop :=
  header.nonce ≤ nonce ∧ nonce.toNat < header.nonce.toNat + attempts
    ∧ meetsTarget { header with nonce }.hash zeros = true

/-- The header with the nonce that is tried after its own. -/
def Header.next (header : Header) : Header :=
  { header with nonce := header.nonce + 1 }

/-- Mine, and if nothing was found mine again from where the search stopped. -/
def Block.mineInTwo (block : Block) (zeros first second : UInt64) :
    Except TargetOutOfReach (Bool × Block) :=
  match block.mine zeros first with
  | .ok (false, mined) => mined.mine zeros second
  | answer => answer

namespace Header
variable {header : Header} {zeros attempts : Nat}

theorem toNat_nonce_next (h : header.nonce.toNat + 1 < UInt64.size) :
    header.next.nonce.toNat = header.nonce.toNat + 1 := by
  rw [next, UInt64.toNat_add]
  exact Nat.mod_eq_of_lt h

theorem search_of_hit (h : meetsTarget header.hash zeros = true) :
    header.search zeros (attempts + 1) = (true, header) := by
  rw [search, if_pos h]

theorem search_of_miss (h : meetsTarget header.hash zeros = false)
    (hn : header.nonce.toNat + 1 < UInt64.size) :
    header.search zeros (attempts + 1) = header.next.search zeros attempts := by
  rw [search, h, if_neg Bool.false_ne_true, if_pos hn, next]

/-- At the largest nonce a search that misses ends, whatever attempts are left. -/
theorem search_of_last (h : meetsTarget header.hash zeros = false)
    (hn : ¬header.nonce.toNat + 1 < UInt64.size) :
    header.search zeros attempts = (false, header) := by
  cases attempts with
  | zero => rfl
  | succ attempts => rw [search, h, if_neg Bool.false_ne_true, if_neg hn]

/-- After a nonce that was in vain the search is for what comes behind it. -/
theorem hits_succ_iff {nonce : UInt64} (h : meetsTarget header.hash zeros = false)
    (hn : header.nonce.toNat + 1 < UInt64.size) :
    header.Hits zeros (attempts + 1) nonce ↔ header.next.Hits zeros attempts nonce := by
  simp only [Hits, UInt64.le_iff_toNat_le, toNat_nonce_next hn]
  constructor
  · rintro ⟨hge, hlt, hhit⟩
    have hne : header.nonce.toNat ≠ nonce.toNat := by
      intro he
      rw [← UInt64.toNat_inj.mp he, h] at hhit
      cases hhit
    exact ⟨by omega, by omega, hhit⟩
  · rintro ⟨hge, hlt, hhit⟩
    exact ⟨by omega, by omega, hhit⟩

/-- What a search can come to: the first hit, or none, and then the place where it stops. -/
theorem search_cases (zeros attempts : Nat) (header : Header) :
    (∃ nonce, header.search zeros attempts = (true, { header with nonce })
        ∧ header.Hits zeros attempts nonce
        ∧ ∀ other, header.Hits zeros attempts other → nonce ≤ other)
      ∨ ∃ nonce, header.search zeros attempts = (false, { header with nonce })
        ∧ (∀ other, ¬header.Hits zeros attempts other)
        ∧ nonce.toNat = min (header.nonce.toNat + attempts) (UInt64.size - 1) := by
  have hsize := header.nonce.toNat_lt_size
  induction attempts generalizing header with
  | zero =>
    refine Or.inr ⟨header.nonce, rfl, ?_, by omega⟩
    rintro other ⟨hge, hlt, _⟩
    rw [UInt64.le_iff_toNat_le] at hge
    omega
  | succ attempts ih =>
    cases hm : meetsTarget header.hash zeros with
    | true =>
      refine Or.inl ⟨header.nonce, search_of_hit hm, ⟨UInt64.le_refl _, by omega, hm⟩, ?_⟩
      intro other hother
      exact hother.1
    | false =>
      by_cases hn : header.nonce.toNat + 1 < UInt64.size
      · have hnext := toNat_nonce_next hn
        rw [search_of_miss hm hn]
        simp only [hits_succ_iff hm hn]
        obtain hfound | ⟨nonce, hstop, hnone, hplace⟩ := ih header.next (by omega)
        · exact Or.inl hfound
        · exact Or.inr ⟨nonce, hstop, hnone, by omega⟩
      · refine Or.inr ⟨header.nonce, search_of_last hm hn, ?_, by omega⟩
        rintro other ⟨hge, _, hhit⟩
        have hother := other.toNat_lt_size
        rw [UInt64.le_iff_toNat_le] at hge
        have he : header.nonce = other := UInt64.toNat_inj.mp (by omega)
        rw [← he, hm] at hhit
        cases hhit

/-- A search is the search with a part of the attempts, and if that finds nothing the search with
the rest of them from where it stopped. -/
theorem search_add (zeros first second : Nat) (header : Header) :
    header.search zeros (first + second)
      = if (header.search zeros first).1 then header.search zeros first
        else (header.search zeros first).2.search zeros second := by
  induction first generalizing header with
  | zero => rw [Nat.zero_add, search, if_neg Bool.false_ne_true]
  | succ first ih =>
    rw [Nat.succ_add]
    cases hm : meetsTarget header.hash zeros with
    | true => rw [search_of_hit hm, search_of_hit hm, if_pos rfl]
    | false =>
      by_cases hn : header.nonce.toNat + 1 < UInt64.size
      · rw [search_of_miss hm hn, search_of_miss hm hn, ih]
      · rw [search_of_last hm hn, search_of_last hm hn, if_neg Bool.false_ne_true,
          search_of_last hm hn]

end Header

namespace Block
variable {block : Block} {zeros attempts : UInt64}

theorem mine_of_lt (h : 64 < zeros) : block.mine zeros attempts = .error ⟨zeros⟩ := by
  rw [mine, if_pos h]

theorem mine_of_le (h : zeros ≤ 64) : block.mine zeros attempts
    = .ok ((block.header.search zeros.toNat attempts.toNat).1,
      { block with header := (block.header.search zeros.toNat attempts.toNat).2 }) := by
  rw [mine, if_neg (UInt64.not_lt.mpr h)]

theorem mineInTwo_eq {first second : UInt64} (h : first.toNat + second.toNat < UInt64.size) :
    block.mineInTwo zeros first second = block.mine zeros (first + second) := by
  obtain hz | hz := UInt64.lt_or_le 64 zeros
  · rw [mineInTwo, mine_of_lt hz, mine_of_lt hz]
  · have hsum : (first + second).toNat = first.toNat + second.toNat := by
      rw [UInt64.toNat_add]
      exact Nat.mod_eq_of_lt h
    rw [mineInTwo, mine_of_le hz, mine_of_le hz, hsum, Header.search_add]
    cases block.header.search zeros.toNat first.toNat with
    | mk found stopped =>
      cases found with
      | true => rfl
      | false => exact mine_of_le hz

end Block

/-- Mining finds the least nonce that the attempts get to and that makes a hash with enough zeros, or
stops behind the last one tried, or at the largest. It can be done in two parts, and if more zeros
are asked for than there are digits it is refused. -/
theorem mining_finds_least :
    (∀ (block : Block) (zeros attempts : UInt64), 64 < zeros →
        block.mine zeros attempts = .error ⟨zeros⟩)
      ∧ (∀ (block : Block) (zeros attempts : UInt64), zeros ≤ 64 → ∃ found nonce,
        block.mine zeros attempts
            = .ok (found, { block with header := { block.header with nonce } })
          ∧ block.header.nonce ≤ nonce
          ∧ (found = true ↔ ∃ hit, block.header.Hits zeros.toNat attempts.toNat hit)
          ∧ (found = true → block.header.Hits zeros.toNat attempts.toNat nonce
            ∧ ∀ hit, block.header.Hits zeros.toNat attempts.toNat hit → nonce ≤ hit)
          ∧ (found = false →
            nonce.toNat = min (block.header.nonce.toNat + attempts.toNat) (UInt64.size - 1)))
      ∧ ∀ (block : Block) (zeros first second : UInt64),
        first.toNat + second.toNat < UInt64.size →
        block.mineInTwo zeros first second = block.mine zeros (first + second) := by
  refine ⟨fun _ _ _ => Block.mine_of_lt, ?_, fun _ _ _ _ => Block.mineInTwo_eq⟩
  intro block zeros attempts hz
  rw [Block.mine_of_le hz]
  obtain ⟨nonce, hs, hhit, hleast⟩ | ⟨nonce, hs, hnone, hplace⟩ :=
    block.header.search_cases zeros.toNat attempts.toNat
  · refine ⟨true, nonce, by rw [hs], hhit.1, ?_, fun _ => ⟨hhit, hleast⟩, nofun⟩
    exact iff_of_true rfl ⟨nonce, hhit⟩
  · refine ⟨false, nonce, by rw [hs], ?_, ?_, nofun, fun _ => hplace⟩
    · have hsize := block.header.nonce.toNat_lt_size
      rw [UInt64.le_iff_toNat_le]
      omega
    · exact iff_of_false Bool.false_ne_true (not_exists.mpr hnone)

/-- A block with the last nonce but one. -/
def lastButOne : Block :=
  ⟨⟨sha256 [], sha256 [], 12, 18446744073709551614⟩, []⟩

/-- The same block with the last nonce. -/
def lastOne : Block :=
  ⟨{ lastButOne.header with nonce := 18446744073709551615 }, []⟩

/-- One attempt is in vain and leaves the last nonce, which a second one finds to be a hit. -/
theorem lastButOne_mined : lastButOne.mine 65 2 = .error ⟨65⟩
    ∧ lastButOne.mine 1 1 = .ok (false, lastOne) ∧ lastButOne.mine 1 2 = .ok (true, lastOne)
    ∧ lastButOne.mineInTwo 1 1 1 = .ok (true, lastOne) := by
  obtain ⟨hrefused, hmined, hparts⟩ := mining_finds_least
  have hmiss : meetsTarget lastButOne.header.hash 1 = false := by decide +kernel
  have hlast : meetsTarget lastOne.header.hash 1 = true := by decide +kernel
  have honly : ∀ attempts hit, lastButOne.header.Hits 1 attempts hit →
      hit = lastOne.header.nonce := by
    rintro attempts hit ⟨hge, _, hm⟩
    have hne : hit.toNat ≠ 18446744073709551614 := by
      intro he
      have hfirst : hit = lastButOne.header.nonce := UInt64.toNat_inj.mp he
      rw [hfirst] at hm
      exact Bool.false_ne_true (hmiss.symm.trans hm)
    have hge' : 18446744073709551614 ≤ hit.toNat := UInt64.le_iff_toNat_le.mp hge
    have hlt : hit.toNat < 18446744073709551616 := hit.toNat_lt_size
    have he : hit.toNat = 18446744073709551615 := by omega
    exact UInt64.toNat_inj.mp he
  have hone : lastButOne.mine 1 1 = .ok (false, lastOne) := by
    obtain ⟨found, nonce, hm, _, hfound, _, hstop⟩ := hmined lastButOne 1 1 (by decide)
    have hf : found = false := by
      rw [← Bool.not_eq_true, hfound]
      rintro ⟨hit, hhit⟩
      have hlt := hhit.2.1
      rw [honly _ _ hhit] at hlt
      exact absurd hlt (by decide)
    have hn : nonce = lastOne.header.nonce := UInt64.toNat_inj.mp (hstop hf)
    rw [hm, hf, hn]
    rfl
  have htwo : lastButOne.mine 1 2 = .ok (true, lastOne) := by
    obtain ⟨found, nonce, hm, _, hfound, hleast, _⟩ := hmined lastButOne 1 2 (by decide)
    have hf : found = true := hfound.mpr ⟨lastOne.header.nonce, by decide, by decide, hlast⟩
    have hn : nonce = lastOne.header.nonce := honly _ _ (hleast hf).1
    rw [hm, hf, hn]
    rfl
  refine ⟨hrefused _ _ _ (by decide), hone, htwo, ?_⟩
  rw [hparts _ _ _ _ (by decide)]
  exact htwo

end CoinLedger
