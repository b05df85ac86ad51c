import CoinLedger.Proofs.Script.Locks
import CoinLedger.Proofs.Transaction.Funding
import CoinLedger.Proofs.Transaction.SignedPart
import CoinLedger.Proofs.Transaction.Structure
import CoinLedger.Proofs.View.Lookup
import CoinLedger.Transaction.Signed

/-! Signed spends, one after another. A key signs the spend without its unlock, and this is what the
lock of the coin asks for once the unlock is in its place, since no signature covers an unlock. The
coin that the spend makes is locked to the recipient as the one before it was to the key, so the
recipient can go on in the same way. Of signing it is asked that the signatures made here verify. -/
namespace CoinLedger
open CoinView

/-- The signature that the key makes of the digest verifies under its public key. -/
def SecretKey.Vouches (key : SecretKey) (digest : Hash) : Prop :=
  verifySignature (sign digest key) key.publicKey.bytes digest = true

instance (key : SecretKey) (digest : Hash) : Decidable (key.Vouches digest) :=
  inferInstanceAs (Decidable (_ = true))

namespace CoinView

/-- At the place there is a coin of this worth, within the money range and locked to this key. -/
structure Holds (view : CoinView) (owner : PublicKey) (held : Amount) (point : OutPoint) :
    Prop where
  coin_at : ∃ coin, view.coin? point = some coin
    ∧ coin.output = ⟨held, Script.payToKeyHash owner.bytes⟩
  held_le : held ≤ maxMoney

/-- The transaction passes by itself and against the view, and leaves exactly so much. -/
structure Takes (view : CoinView) (tx : Transaction) (left : Int) : Prop where
  check_eq : tx.check = .valid
  checkInputs_eq : ∃ fee, view.checkInputs tx = (.valid, fee) ∧ fee.toInt = left
  verify_eq : view.verify tx = .valid

theorem Holds.valueAt_eq {view : CoinView} {owner : PublicKey} {held : Amount} {point : OutPoint}
    (h : view.Holds owner held point) : view.valueAt point = held.toInt := by
  obtain ⟨coin, hc, ho⟩ := h.coin_at
  rw [valueAt, hc]
  simp [Coin.value, ho]

end CoinView

theorem withinMoney_of_le {value : Amount} (h0 : 0 ≤ value) (hm : value ≤ maxMoney) :
    WithinMoney value.toInt :=
  ⟨Int64.le_iff_toInt_le.mp h0, Int64.le_iff_toInt_le.mp hm⟩

/-- What one holder pays to another. -/
structure Payment where
  key : SecretKey
  recipient : PublicKey
  value : Amount

namespace Payment

/-- The signed spend of a coin. -/
def spend (payment : Payment) (point : OutPoint) : Transaction :=
  signedSpend payment.key payment.recipient payment.value point

/-- The spend as it is signed, before its unlock is in place. -/
def unsigned (payment : Payment) (point : OutPoint) : Transaction :=
  .spend [⟨point, .empty⟩] [⟨payment.value, Script.payToKeyHash payment.recipient.bytes⟩]

section Spend
variable (payment : Payment) (point : OutPoint)

theorem spend_eq_withUnlock : payment.spend point
    = (payment.unsigned point).withUnlock 0
      ⟨sign (payment.unsigned point).signatureHash payment.key, payment.key.publicKey.bytes⟩ := by
  rw [unsigned, Transaction.withUnlock, spend, signedSpend]
  rfl

theorem signatureHash_spend :
    (payment.spend point).signatureHash = (payment.unsigned point).signatureHash := by
  rw [spend_eq_withUnlock]
  exact (Transaction.sameButUnlocks_withUnlock _ _ _).signatureHash_eq

/-- The signature in a signed spend is one of the signature hash that it has with it. -/
theorem inputs_spend : (payment.spend point).inputs
    = [⟨point, ⟨sign (payment.spend point).signatureHash payment.key,
        payment.key.publicKey.bytes⟩⟩] := by
  rw [signatureHash_spend, unsigned, spend, signedSpend, Transaction.sign, Transaction.inputs]

@[simp] theorem isCoinbase_spend : (payment.spend point).isCoinbase = false := rfl

@[simp] theorem prevouts_spend : (payment.spend point).prevouts = [point] := rfl

@[simp] theorem outputs_spend : (payment.spend point).outputs
    = [⟨payment.value, Script.payToKeyHash payment.recipient.bytes⟩] := rfl

/-- The coin that the spend makes. -/
def made : Coin :=
  ⟨⟨payment.value, Script.payToKeyHash payment.recipient.bytes⟩, false, false⟩

theorem created_spend :
    (payment.spend point).created = [(⟨(payment.spend point).id, 0⟩, payment.made)] := by
  simp [Transaction.created, made]

end Spend

section Accepted
variable {view : CoinView} {owner : PublicKey} {held : Amount} {payment : Payment}
  {point : OutPoint}

theorem check_spend (h0 : 0 ≤ payment.value) (hm : payment.value ≤ maxMoney) :
    (payment.spend point).check = .valid := by
  have hw := withinMoney_of_le h0 hm
  apply Transaction.check_eq_valid_iff_sound.mpr
  exact {
    source := Or.inr (by simp [inputs_spend])
    target := by simp
    inRange := by simpa using hw
    total_le := by simpa using hw.2
    distinct := by simp }

theorem funded_spend (h : view.Holds owner held point) (h0 : 0 ≤ payment.value)
    (hle : payment.value ≤ held) : view.Funded (payment.spend point) := by
  have hw := withinMoney_of_le (Int64.le_trans h0 hle) h.held_le
  have hk : (payment.spend point).check = .valid := check_spend h0 (Int64.le_trans hle h.held_le)
  obtain ⟨sum, hs⟩ := Transaction.valueOut_of_check hk
  exact {
    visible := by simpa [Sees] using h.coin_at.imp fun _ hc => hc.1
    coins := ⟨by simpa [h.valueAt_eq] using hw, by simpa [worthAt, h.valueAt_eq] using hw.2⟩
    outputs := (valueOut_eq_some_iff.mp hs).1
    covered := by simpa [worthAt, h.valueAt_eq] using Int64.le_iff_toInt_le.mp hle }

theorem checkInputs_spend (h : view.Holds owner held point) (h0 : 0 ≤ payment.value)
    (hle : payment.value ≤ held) : ∃ fee, view.checkInputs (payment.spend point) = (.valid, fee)
      ∧ fee.toInt = held.toInt - payment.value.toInt := by
  obtain ⟨fee, hf⟩ := (exists_checkInputs_iff (isCoinbase_spend payment point)).mpr
    (funded_spend h h0 hle)
  refine ⟨fee, hf, ?_⟩
  rw [((checkInputs_eq_valid_iff (isCoinbase_spend payment point)).mp hf).2]
  simp [worthAt, h.valueAt_eq]

theorem authorized_spend (h : view.Holds payment.key.publicKey held point)
    (hs : payment.key.Vouches (payment.spend point).signatureHash) :
    view.Authorized (payment.spend point) := by
  obtain ⟨coin, hc, ho⟩ := h.coin_at
  intro k input hk
  have hi : k = 0 ∧ input = ⟨point, ⟨sign (payment.spend point).signatureHash payment.key,
      payment.key.publicKey.bytes⟩⟩ := by
    simpa [inputs_spend, List.getElem?_singleton, eq_comm] using hk
  rw [SecretKey.Vouches] at hs
  refine ⟨coin, by rw [hi.2, hc], ?_⟩
  rw [hi.2, ho, Script.opens_payToKeyHash, hs, decide_eq_true rfl, Bool.and_true]

/-- One payment: it is accepted, and what it makes is held by its recipient. -/
theorem takes_spend (h : view.Holds payment.key.publicKey held point) (h0 : 0 ≤ payment.value)
    (hle : payment.value ≤ held)
    (hs : payment.key.Vouches (payment.spend point).signatureHash) :
    view.Takes (payment.spend point) (held.toInt - payment.value.toInt) := by
  have hi := checkInputs_spend h h0 hle
  refine ⟨check_spend h0 (Int64.le_trans hle h.held_le), hi, ?_⟩
  obtain ⟨fee, hf, _⟩ := hi
  obtain ⟨_, hv⟩ | ⟨hn, _⟩ := verify_of_funded (isCoinbase_spend payment point) hf
  · exact hv
  · exact absurd (authorized_spend h hs) hn

theorem holds_update_spend (view : CoinView) (point : OutPoint) (hm : payment.value ≤ maxMoney) :
    (view.update (payment.spend point)).Holds payment.recipient payment.value
      ⟨(payment.spend point).id, 0⟩ := by
  have hl : lastAt ⟨(payment.spend point).id, 0⟩ (payment.spend point).created
      = some payment.made := by
    rw [created_spend]
    exact lastAt_of_mem (List.pairwise_singleton _ _) List.mem_cons_self
  refine ⟨⟨payment.made, ?_, rfl⟩, hm⟩
  rw [coin?_update, hl]
  rfl

end Accepted

/-- Each payment spends the coin that the one before it makes. -/
def spends : OutPoint → List Payment → List Transaction
  | _, [] => []
  | point, payment :: rest => payment.spend point :: spends ⟨(payment.spend point).id, 0⟩ rest

/-- Each payment is made by the holder of the coin that it spends, and pays out no more than this
coin and no less than nothing. -/
def Chained (owner : PublicKey) (held : Amount) : List Payment → Prop
  | [] => True
  | payment :: rest => payment.key.publicKey = owner ∧ 0 ≤ payment.value ∧ payment.value ≤ held
    ∧ Chained payment.recipient payment.value rest

/-- The signatures of the payments verify. -/
def Vouched (point : OutPoint) (payments : List Payment) : Prop :=
  ∀ link ∈ payments.zip (spends point payments), link.1.key.Vouches link.2.signatureHash

theorem vouched_cons {payment : Payment} {rest : List Payment} {point : OutPoint} :
    Vouched point (payment :: rest) ↔ payment.key.Vouches (payment.spend point).signatureHash
      ∧ Vouched ⟨(payment.spend point).id, 0⟩ rest := by
  rw [Vouched, spends, List.zip_cons_cons, List.forall_mem_cons]
  rfl

/-- At a position of a list of transactions a payment is made from a coin worth `before`: it is
accepted after those before it, and its coin is then held by its recipient. -/
structure PaidAt (view : CoinView) (txs : List Transaction) (i : Nat) (payment : Payment)
    (before : Amount) (tx : Transaction) : Prop where
  transaction_at : txs[i]? = some tx
  takes : ((txs.take i).foldl update view).Takes tx (before.toInt - payment.value.toInt)
  holds : ((txs.take (i + 1)).foldl update view).Holds payment.recipient payment.value ⟨tx.id, 0⟩

theorem exists_paidAt {view : CoinView} {owner : PublicKey} {held : Amount} {point : OutPoint}
    {payments : List Payment} (h : view.Holds owner held point) (hc : Chained owner held payments)
    (hs : Vouched point payments) {i : Nat} {payment : Payment} (hi : payments[i]? = some payment) :
    ∃ before tx, (held :: payments.map (·.value))[i]? = some before
      ∧ PaidAt view (spends point payments) i payment before tx := by
  induction payments generalizing view owner held point i with
  | nil => cases hi
  | cons first rest ih =>
    obtain ⟨rfl, h0, hle, hr⟩ := hc
    rw [vouched_cons] at hs
    -- The rest of the chain starts at the coin just made, in the view that the payment leaves.
    have hnext := holds_update_spend view point (Int64.le_trans hle h.held_le)
    cases i with
    | zero =>
      cases hi
      exact ⟨held, payment.spend point, rfl, rfl, takes_spend h h0 hle hs.1, hnext⟩
    | succ i =>
      obtain ⟨before, tx, hb, hp⟩ := ih hnext hr hs.2 hi
      exact ⟨before, tx, hb, hp.transaction_at, hp.takes, hp.holds⟩

end Payment
open Payment

/-- A signed spend of a coin that the key holds is accepted, with the difference as its fee, and the
recipient then holds the coin that it makes. So all payments of a chain are accepted, however long
it is. -/
theorem signed_spends_accepted :
    (∀ (view : CoinView) (key : SecretKey) (recipient : PublicKey) (value held : Amount)
        (prevout : OutPoint), view.Holds key.publicKey held prevout → 0 ≤ value → value ≤ held →
      let tx := signedSpend key recipient value prevout
      key.Vouches tx.signatureHash →
      view.Takes tx (held.toInt - value.toInt)
        ∧ (view.update tx).Holds recipient value ⟨tx.id, 0⟩)
      ∧ ∀ (view : CoinView) (owner : PublicKey) (held : Amount) (prevout : OutPoint)
        (payments : List Payment), view.Holds owner held prevout → Chained owner held payments →
        Vouched prevout payments → ∀ (i : Nat) (payment : Payment), payments[i]? = some payment →
        ∃ before tx, (held :: payments.map (·.value))[i]? = some before
          ∧ PaidAt view (spends prevout payments) i payment before tx := by
  refine ⟨?_, ?_⟩
  · intro view key recipient value held prevout h h0 hle tx hs
    have hm : value ≤ maxMoney := Int64.le_trans hle h.held_le
    let payment : Payment := ⟨key, recipient, value⟩
    exact ⟨payment.takes_spend h h0 hle hs, payment.holds_update_spend view prevout hm⟩
  · intro view owner held prevout payments h hc hs i payment hi
    exact exists_paidAt h hc hs hi

namespace SecretKey

def one : SecretKey := ⟨1, by decide, by decide⟩

def two : SecretKey := ⟨2, by decide, by decide⟩

end SecretKey
open SecretKey

/-- A coin of seven that the first key holds. -/
def heldByOne : CoinMap :=
  (∅ : CoinMap).insert ⟨sha256 [1], 0⟩ ⟨⟨7, Script.payToKeyHash one.publicKey.bytes⟩, true, false⟩

/-- The first key pays five to the second, which pays all of it back. -/
def thereAndBack : List Payment :=
  [⟨one, two.publicKey, 5⟩, ⟨two, one.publicKey, 5⟩]

theorem thereAndBack_paid :
    (ledger heldByOne).Takes (signedSpend one two.publicKey 5 ⟨sha256 [1], 0⟩) 2
      ∧ ∃ tx, PaidAt (ledger heldByOne) (spends ⟨sha256 [1], 0⟩ thereAndBack) 1
        ⟨two, one.publicKey, 5⟩ 5 tx := by
  have hs : Vouched ⟨sha256 [1], 0⟩ thereAndBack := by
    unfold Vouched
    decide +kernel
  have hfirst : one.Vouches (signedSpend one two.publicKey 5 ⟨sha256 [1], 0⟩).signatureHash := by
    simpa only [Payment.spend] using (vouched_cons.mp hs).1
  have hh : (ledger heldByOne).Holds one.publicKey 7 ⟨sha256 [1], 0⟩ := by
    refine ⟨⟨⟨⟨7, Script.payToKeyHash one.publicKey.bytes⟩, true, false⟩, ?_, rfl⟩, by decide⟩
    simp [coin?, heldByOne, Option.filter]
  have hc : Chained one.publicKey 7 thereAndBack := by
    simp only [Chained, thereAndBack, true_and]
    decide
  have hleft : (7 : Amount).toInt - (5 : Amount).toInt = 2 := by decide
  obtain ⟨hspend, hchain⟩ := signed_spends_accepted
  refine ⟨?_, ?_⟩
  · rw [← hleft]
    exact (hspend _ _ _ _ _ _ hh (by decide) (by decide) hfirst).1
  · obtain ⟨before, tx, hb, hp⟩ := hchain _ _ _ _ _ hh hc hs 1 _ rfl
    cases hb
    exact ⟨tx, hp⟩

end CoinLedger
