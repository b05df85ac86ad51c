import CoinLedger.Proofs.Encoding.SelfDelimiting

/-! What the signatures of a transaction cover. A blanked transaction still shows its kind, its
prevouts and its outputs, and it shows nothing else; since byte forms tell transactions apart, the
signature hash commits to these three, and no unlock has a part in it. -/
namespace CoinLedger
namespace Transaction

/-- The transaction with another unlock at one of its inputs, if there is such an input. -/
def withUnlock (index : Nat) (unlock : Unlock) : Transaction → Transaction
  | coinbase outputs => coinbase outputs
  | spend inputs outputs =>
    spend (inputs.modify index fun input => ⟨input.prevout, unlock⟩) outputs

/-- Two transactions differ at most in what unlocks their inputs. -/
structure SameButUnlocks (t u : Transaction) : Prop where
  isCoinbase_eq : t.isCoinbase = u.isCoinbase
  outputs_eq : t.outputs = u.outputs
  prevouts_eq : t.prevouts = u.prevouts

theorem sameButUnlocks_blank (tx : Transaction) : tx.blank.SameButUnlocks tx := by
  cases tx with
  | coinbase outputs => exact ⟨rfl, rfl, rfl⟩
  | spend inputs outputs => exact ⟨rfl, rfl, by simp [prevouts, blank, Transaction.inputs]⟩

theorem sameButUnlocks_withUnlock (tx : Transaction) (index : Nat) (unlock : Unlock) :
    (tx.withUnlock index unlock).SameButUnlocks tx := by
  cases tx with
  | coinbase outputs => exact ⟨rfl, rfl, rfl⟩
  | spend inputs outputs =>
    refine ⟨rfl, rfl, ?_⟩
    apply List.ext_getElem?
    intro k
    by_cases hk : index = k <;>
      simp [prevouts, withUnlock, Transaction.inputs, hk, Function.comp_def]

theorem blank_eq_of_prevouts (inputs : List Input) (outputs : List Output) :
    (spend inputs outputs).blank
      = spend ((spend inputs outputs).prevouts.map fun point => ⟨point, .empty⟩) outputs := by
  simp [blank, prevouts, Transaction.inputs]

/-- Blanking leaves nothing of the unlocks, and all of the rest. -/
theorem blank_eq_blank_iff {t u : Transaction} : t.blank = u.blank ↔ t.SameButUnlocks u := by
  constructor
  · intro h
    have ht := sameButUnlocks_blank t
    have hu := sameButUnlocks_blank u
    rw [h] at ht
    exact ⟨ht.isCoinbase_eq.symm.trans hu.isCoinbase_eq, ht.outputs_eq.symm.trans hu.outputs_eq,
      ht.prevouts_eq.symm.trans hu.prevouts_eq⟩
  · intro h
    obtain ⟨hc, ho, hp⟩ := h
    cases t with
    | coinbase outputs =>
      cases u with
      | coinbase others => exact congrArg coinbase ho
      | spend inputs others => cases hc
    | spend inputs outputs =>
      cases u with
      | coinbase others => cases hc
      | spend others outs =>
        rw [blank_eq_of_prevouts, blank_eq_of_prevouts, hp]
        exact congrArg _ ho

theorem Fits.blank {tx : Transaction} (h : tx.Fits) : tx.blank.Fits := by
  cases tx with
  | coinbase outputs => exact h
  | spend inputs outputs =>
    obtain ⟨⟨hl, _⟩, ho⟩ := h
    refine ⟨⟨by simpa [Short] using hl, ?_⟩, ho⟩
    intro input hm
    obtain ⟨_, _, rfl⟩ := List.mem_map.mp hm
    have hnil : ([] : Bytes).length < UInt64.size := by decide
    exact ⟨hnil, hnil⟩

theorem SameButUnlocks.signatureHash_eq {t u : Transaction} (h : t.SameButUnlocks u) :
    t.signatureHash = u.signatureHash := by
  rw [signatureHash, signatureHash, blank_eq_blank_iff.mpr h]

end Transaction
open Transaction

/-- The signature hash takes no notice of unlocks. Apart from a collision between their blanked byte
forms, two transactions have one signature hash only if they are of one kind and have the same
outputs and the same prevouts in the same order. -/
theorem signatureHash_covers (t : Transaction) :
    t.blank.signatureHash = t.signatureHash
      ∧ (∀ index unlock, (t.withUnlock index unlock).signatureHash = t.signatureHash)
      ∧ ∀ u : Transaction, t.Fits → u.Fits →
        (doubleSha256 t.blank.encode = doubleSha256 u.blank.encode →
          t.blank.encode = u.blank.encode) →
        (t.signatureHash = u.signatureHash ↔ t.SameButUnlocks u)
          ∧ (t.isCoinbase ≠ u.isCoinbase → t.signatureHash ≠ u.signatureHash) := by
  refine ⟨(sameButUnlocks_blank t).signatureHash_eq,
    fun index unlock => (sameButUnlocks_withUnlock t index unlock).signatureHash_eq, ?_⟩
  intro u ht hu hs
  have hiff : t.signatureHash = u.signatureHash ↔ t.SameButUnlocks u := by
    constructor
    · intro h
      exact blank_eq_blank_iff.mp (Transaction.encode_inj ht.blank hu.blank (hs h))
    · exact SameButUnlocks.signatureHash_eq
  exact ⟨hiff, fun hc h => hc (hiff.mp h).isCoinbase_eq⟩

/-- A spend of two coins, one of them with an unlock. -/
def halfSigned : Transaction :=
  .spend [⟨⟨sha256 [1], 0⟩, ⟨[1], [2]⟩⟩, ⟨⟨sha256 [2], 0⟩, .empty⟩] [⟨7, []⟩]

/-- The same, with the inputs in the other order. -/
def halfSignedTurned : Transaction :=
  .spend [⟨⟨sha256 [2], 0⟩, .empty⟩, ⟨⟨sha256 [1], 0⟩, ⟨[1], [2]⟩⟩] [⟨7, []⟩]

theorem halfSigned_signatureHash :
    (halfSigned.withUnlock 1 ⟨[3], []⟩).id ≠ halfSigned.id
      ∧ (halfSigned.withUnlock 1 ⟨[3], []⟩).signatureHash = halfSigned.signatureHash
      ∧ halfSigned.signatureHash ≠ halfSignedTurned.signatureHash
      ∧ halfSigned.signatureHash ≠ (Transaction.coinbase [⟨7, []⟩]).signatureHash := by
  have hfits : halfSigned.Fits ∧ halfSignedTurned.Fits
      ∧ (Transaction.coinbase [⟨7, []⟩]).Fits := by
    have h2 : 2 < UInt64.size := by decide
    have h1 : 1 < UInt64.size := by decide
    simp [halfSigned, halfSignedTurned, Transaction.Fits, ShortOf, Short, Input.Fits, Unlock.Fits,
      Unlock.empty, Output.Fits, Script.Fits, h1, h2]
  obtain ⟨hhalf, hturned, hreward⟩ := hfits
  have hne : doubleSha256 halfSigned.blank.encode
      ≠ doubleSha256 halfSignedTurned.blank.encode := by decide +kernel
  have hkind : doubleSha256 halfSigned.blank.encode
      ≠ doubleSha256 (Transaction.coinbase [⟨7, []⟩]).blank.encode := by decide +kernel
  have hprevouts : halfSigned.prevouts ≠ halfSignedTurned.prevouts := by decide +kernel
  obtain ⟨_, hunlock, hcovers⟩ := signatureHash_covers halfSigned
  refine ⟨by decide +kernel, hunlock 1 _, ?_, ?_⟩
  · intro h
    have hs := ((hcovers _ hhalf hturned fun he => absurd he hne).1.mp h).prevouts_eq
    exact hprevouts hs
  · exact (hcovers _ hhalf hreward fun he => absurd he hkind).2 (by decide)

end CoinLedger
