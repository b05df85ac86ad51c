import CoinLedger.Proofs.Value.Guarded

/-! The rules for a spend against a view, each said without the passes over inputs and outputs that
try them. What is asked of the coins is asked of each of them and of their exact sum, so the order
of the inputs does not matter; and once both sums are within the range, a fee can fail in one way
only. -/
namespace CoinLedger
namespace CoinView
variable {view : CoinView} {tx : Transaction}

/-- There is a coin at each of the places. -/
def Sees (view : CoinView) (points : List OutPoint) : Prop :=
  ∀ point ∈ points, ∃ coin, view.coin? point = some coin

/-- The exact sum of the coins at the places, each counted as often as its place is named. -/
def worthAt (view : CoinView) (points : List OutPoint) : Int := (points.map view.valueAt).sum

/-- Each coin at the places is worth an amount within the money range, and so are all together. -/
structure CoinsWithin (view : CoinView) (points : List OutPoint) : Prop where
  each : ∀ point ∈ points, WithinMoney (view.valueAt point)
  total_le : view.worthAt points ≤ maxMoney.toInt

/-- What the rules on inputs and values ask of a spend. -/
structure Funded (view : CoinView) (tx : Transaction) : Prop where
  visible : view.Sees tx.prevouts
  coins : view.CoinsWithin tx.prevouts
  outputs : PartialSumsWithin tx.outputs
  covered : worthOf tx.outputs ≤ view.worthAt tx.prevouts

/-- The first of these rules that a spend breaks. -/
inductive Unfunded (view : CoinView) (tx : Transaction) : RejectReason → Prop
  | missing (hidden : ¬view.Sees tx.prevouts) : Unfunded view tx .inputsMissingOrSpent
  | coins (visible : view.Sees tx.prevouts) (outside : ¬view.CoinsWithin tx.prevouts) :
    Unfunded view tx .inputValuesOutOfRange
  | outputs (visible : view.Sees tx.prevouts) (coins : view.CoinsWithin tx.prevouts)
    (outside : ¬PartialSumsWithin tx.outputs) : Unfunded view tx .outputTotalTooLarge
  | short (visible : view.Sees tx.prevouts) (coins : view.CoinsWithin tx.prevouts)
    (outputs : PartialSumsWithin tx.outputs)
    (uncovered : view.worthAt tx.prevouts < worthOf tx.outputs) : Unfunded view tx .inBelowOut

/-- Every input opens the lock of the coin that it names. -/
def Authorized (view : CoinView) (tx : Transaction) : Prop :=
  ∀ (k : Nat) (input : Input), tx.inputs[k]? = some input → ∃ coin,
    view.coin? input.prevout = some coin
      ∧ Script.opens input.unlock.script coin.output.lock tx k = .ok true

theorem worthAt_cons (view : CoinView) (point : OutPoint) (rest : List OutPoint) :
    view.worthAt (point :: rest) = view.valueAt point + view.worthAt rest :=
  List.sum_cons

theorem worthAt_nonneg {points : List OutPoint}
    (h : ∀ point ∈ points, WithinMoney (view.valueAt point)) : 0 ≤ view.worthAt points := by
  apply List.sum_nonneg
  intro value hm
  obtain ⟨point, hp, rfl⟩ := List.mem_map.mp hm
  exact (h point hp).1

theorem CoinsWithin.worthAt {points : List OutPoint} (h : view.CoinsWithin points) :
    WithinMoney (view.worthAt points) :=
  ⟨worthAt_nonneg h.each, h.total_le⟩

/-- What a funded spend leaves is an amount of money again. -/
theorem Funded.within (h : view.Funded tx) :
    WithinMoney (view.worthAt tx.prevouts - worthOf tx.outputs) := by
  have hi := h.coins.worthAt
  have ho := h.outputs.worthOf
  have hle := h.covered
  simp only [WithinMoney] at hi ho ⊢
  omega

section Perm
variable {points others : List OutPoint} (h : points.Perm others)
include h

theorem sees_perm : view.Sees points ↔ view.Sees others :=
  forall_congr' fun _ => imp_congr_left h.mem_iff

theorem worthAt_perm : view.worthAt points = view.worthAt others :=
  (h.map _).sum_eq

theorem coinsWithin_perm : view.CoinsWithin points ↔ view.CoinsWithin others := by
  constructor
  · intro hw
    exact ⟨fun point hm => hw.each point (h.mem_iff.mpr hm), worthAt_perm h ▸ hw.total_le⟩
  · intro hw
    exact ⟨fun point hm => hw.each point (h.mem_iff.mp hm), worthAt_perm h ▸ hw.total_le⟩

end Perm

theorem hasInputs_iff_sees : view.hasInputs tx = true ↔ view.Sees tx.prevouts := by
  rw [hasInputs, List.all_eq_true]
  exact forall_congr' fun point => imp_congr_right fun _ => Option.isSome_iff_exists

theorem addValueAt_cases {point : OutPoint} (hs : ∃ coin, view.coin? point = some coin)
    (total : Amount) :
    (WithinMoney (view.valueAt point) ∧ ∃ next, view.addValueAt total point = .ok next
        ∧ WithinMoney next.toInt ∧ next.toInt = total.toInt + view.valueAt point)
      ∨ ¬(WithinMoney (view.valueAt point) ∧ WithinMoney (total.toInt + view.valueAt point))
        ∧ view.addValueAt total point = .error .inputValuesOutOfRange := by
  obtain ⟨coin, hc⟩ := hs
  have hv : view.valueAt point = coin.value.toInt := by rw [valueAt, hc]
  rw [hv]
  simp only [addValueAt, hc]
  by_cases hr : inMoneyRange coin.value = true
  · rw [if_pos hr]
    cases ha : addMoney total coin.value with
    | none => exact Or.inr ⟨fun hw => amount?_eq_none_iff.mp ha hw.2, rfl⟩
    | some next =>
      obtain ⟨hw, he⟩ := amount?_eq_some_iff.mp ha
      exact Or.inl ⟨(inMoneyRange_iff _).mp hr, next, rfl, he ▸ hw, he⟩
  · rw [if_neg hr]
    exact Or.inr ⟨fun hw => hr ((inMoneyRange_iff _).mpr hw.1), rfl⟩

/-- The sum of coins that are there goes through, or it fails for the one reason. -/
theorem foldlM_addValueAt_cases {points : List OutPoint} (hs : view.Sees points) {total : Amount}
    (ht : WithinMoney total.toInt) :
    (((∀ point ∈ points, WithinMoney (view.valueAt point))
          ∧ total.toInt + view.worthAt points ≤ maxMoney.toInt)
        ∧ ∃ sum, points.foldlM view.addValueAt total = .ok sum)
      ∨ ¬((∀ point ∈ points, WithinMoney (view.valueAt point))
          ∧ total.toInt + view.worthAt points ≤ maxMoney.toInt)
        ∧ points.foldlM view.addValueAt total = .error .inputValuesOutOfRange := by
  induction points generalizing total with
  | nil => exact Or.inl ⟨⟨by simp, by simpa [worthAt] using ht.2⟩, total, rfl⟩
  | cons point rest ih =>
    obtain ⟨hp, hr⟩ := List.forall_mem_cons.mp hs
    rw [List.foldlM_cons, List.forall_mem_cons, worthAt_cons, ← Int.add_assoc]
    obtain ⟨hv, next, ha, hw, he⟩ | ⟨hn, ha⟩ := addValueAt_cases hp total
    · rw [ha, ← he]
      obtain ⟨hin, hsum⟩ | ⟨hout, herror⟩ := ih hr hw
      · exact Or.inl ⟨⟨⟨hv, hin.1⟩, hin.2⟩, hsum⟩
      · exact Or.inr ⟨fun h => hout ⟨h.1.2, h.2⟩, herror⟩
    · refine Or.inr ⟨?_, by rw [ha]; rfl⟩
      intro h
      have h0 := worthAt_nonneg h.1.2
      have hv := h.1.1
      apply hn
      simp only [WithinMoney] at ht hv ⊢
      omega

theorem valueIn_cases (hs : view.Sees tx.prevouts) :
    (view.CoinsWithin tx.prevouts ∧ ∃ sum, view.valueIn tx = .ok sum
        ∧ sum.toInt = view.worthAt tx.prevouts)
      ∨ ¬view.CoinsWithin tx.prevouts
        ∧ view.valueIn tx = .error .inputValuesOutOfRange := by
  have h0 : (0 : Amount).toInt = 0 := rfl
  obtain ⟨hin, sum, hsum⟩ | ⟨hout, herror⟩ := foldlM_addValueAt_cases hs withinMoney_zero
  · rw [h0, Int.zero_add] at hin
    exact Or.inl ⟨⟨hin.1, hin.2⟩, sum, hsum, toInt_valueIn hsum⟩
  · rw [h0, Int.zero_add] at hout
    exact Or.inr ⟨fun h => hout ⟨h.each, h.total_le⟩, herror⟩

/-- What the passes over the inputs and outputs of a spend come to. -/
theorem inputFee_cases (view : CoinView) (hc : tx.isCoinbase = false) :
    (view.Funded tx ∧ ∃ left, view.inputFee tx = .ok left
        ∧ left.toInt = view.worthAt tx.prevouts - worthOf tx.outputs)
      ∨ ∃ reason, view.Unfunded tx reason ∧ view.inputFee tx = .error reason := by
  simp only [inputFee, hc, Bool.false_eq_true, if_false]
  by_cases hs : view.Sees tx.prevouts
  · rw [hasInputs_iff_sees.mpr hs]
    obtain ⟨hin, valueIn, hi, hei⟩ | ⟨hout, hi⟩ := valueIn_cases hs
    · cases ho : tx.valueOut with
      | none =>
        have hn := valueOut_eq_none_iff.mp ho
        exact Or.inr ⟨_, .outputs hs hin hn, by simp [hi]⟩
      | some valueOut =>
        obtain ⟨hp, heo⟩ := valueOut_eq_some_iff.mp ho
        have hwi := hin.worthAt
        have hwo := hp.worthOf
        rw [← hei] at hwi
        rw [← heo] at hwo
        obtain ⟨hle, left, hf, hl⟩ | ⟨hlt, hf⟩ := fee_cases hwi hwo
        · rw [hei, heo] at hle hl
          exact Or.inl ⟨⟨hs, hin, hp, hle⟩, left, by simp [hi, hf], hl⟩
        · rw [hei, heo] at hlt
          exact Or.inr ⟨_, .short hs hin hp hlt, by simp [hi, hf]⟩
    · exact Or.inr ⟨_, .coins hs hout, by simp [hi]⟩
  · have hn : view.hasInputs tx = false := by
      rw [Bool.eq_false_iff]
      exact fun h => hs (hasInputs_iff_sees.mp h)
    exact Or.inr ⟨_, .missing hs, by simp [hn]⟩

namespace Unfunded
variable {reason other : RejectReason}

theorem not_funded (h : view.Unfunded tx reason) : ¬view.Funded tx := by
  intro hf
  cases h with
  | missing hidden => exact hidden hf.visible
  | coins _ outside => exact outside hf.coins
  | outputs _ _ outside => exact outside hf.outputs
  | short _ _ _ uncovered => exact absurd hf.covered (Int.not_le.mpr uncovered)

/-- There is one first rule that is broken. -/
theorem unique (h : view.Unfunded tx reason) (ho : view.Unfunded tx other) : reason = other := by
  cases h <;> cases ho <;> first | rfl | contradiction

end Unfunded

section Verdict
variable (hc : tx.isCoinbase = false)
include hc

theorem checkInputs_eq_valid_iff {left : Amount} : view.checkInputs tx = (.valid, left)
    ↔ view.Funded tx ∧ left.toInt = view.worthAt tx.prevouts - worthOf tx.outputs := by
  obtain ⟨hf, found, hi, he⟩ | ⟨reason, hu, hi⟩ := view.inputFee_cases hc
  · rw [checkInputs, hi, ← he, Int64.toInt_inj]
    simp [hf, eq_comm]
  · rw [checkInputs, hi]
    simp [hu.not_funded]

/-- A funded spend is accepted with some fee. -/
theorem exists_checkInputs_iff : (∃ left, view.checkInputs tx = (.valid, left))
    ↔ view.Funded tx := by
  constructor
  · intro h
    obtain ⟨left, hv⟩ := h
    exact ((checkInputs_eq_valid_iff hc).mp hv).1
  · intro h
    obtain ⟨_, left, hi, _⟩ | ⟨reason, hu, _⟩ := view.inputFee_cases hc
    · exact ⟨left, by rw [checkInputs, hi]⟩
    · exact absurd h hu.not_funded

theorem checkInputs_eq_invalid_iff {reason : RejectReason} {left : Amount} :
    view.checkInputs tx = (.invalid reason, left) ↔ view.Unfunded tx reason ∧ left = 0 := by
  obtain ⟨hf, found, hi, he⟩ | ⟨other, hu, hi⟩ := view.inputFee_cases hc
  · have hn : ¬view.Unfunded tx reason := fun h => h.not_funded hf
    rw [checkInputs, hi]
    simp [hn]
  · have hr : view.Unfunded tx reason ↔ other = reason := ⟨hu.unique, fun h => h ▸ hu⟩
    rw [checkInputs, hi, hr]
    simp [eq_comm]

end Verdict

section Exchange
variable {other : Transaction} (hp : tx.prevouts.Perm other.prevouts)
  (ho : tx.outputs = other.outputs)
include hp ho

theorem Funded.perm (h : view.Funded tx) : view.Funded other where
  visible := (sees_perm hp).mp h.visible
  coins := (coinsWithin_perm hp).mp h.coins
  outputs := ho ▸ h.outputs
  covered := ho ▸ worthAt_perm hp ▸ h.covered

theorem Unfunded.perm {reason : RejectReason} (h : view.Unfunded tx reason) :
    view.Unfunded other reason := by
  cases h with
  | missing hidden => exact .missing (mt (sees_perm hp).mpr hidden)
  | coins visible outside =>
    exact .coins ((sees_perm hp).mp visible) (mt (coinsWithin_perm hp).mpr outside)
  | outputs visible coins outside =>
    exact .outputs ((sees_perm hp).mp visible) ((coinsWithin_perm hp).mp coins) (ho ▸ outside)
  | short visible coins outputs uncovered =>
    exact .short ((sees_perm hp).mp visible) ((coinsWithin_perm hp).mp coins) (ho ▸ outputs)
      (ho ▸ worthAt_perm hp ▸ uncovered)

/-- The order of the inputs matters neither to the verdict on them nor to the fee. -/
theorem checkInputs_perm (hc : tx.isCoinbase = false) (hn : other.isCoinbase = false) :
    view.checkInputs tx = view.checkInputs other := by
  cases h : view.checkInputs tx with
  | mk verdict left =>
    cases verdict with
    | valid =>
      obtain ⟨hf, hl⟩ := (checkInputs_eq_valid_iff hc).mp h
      rw [worthAt_perm hp, ho] at hl
      exact ((checkInputs_eq_valid_iff hn).mpr ⟨hf.perm hp ho, hl⟩).symm
    | invalid reason =>
      obtain ⟨hu, hl⟩ := (checkInputs_eq_invalid_iff hc).mp h
      exact ((checkInputs_eq_invalid_iff hn).mpr ⟨hu.perm hp ho, hl⟩).symm

end Exchange

/-- The inputs, of which the first stands at position `index`, open the locks of their coins. -/
def AuthorizedFrom (view : CoinView) (tx : Transaction) (index : Nat) (inputs : List Input) :
    Prop :=
  ∀ (k : Nat) (input : Input), inputs[k]? = some input → ∃ coin,
    view.coin? input.prevout = some coin
      ∧ Script.opens input.unlock.script coin.output.lock tx (index + k) = .ok true

theorem authorizedFrom_cons {index : Nat} {input : Input} {rest : List Input} {coin : Coin}
    (hc : view.coin? input.prevout = some coin) : view.AuthorizedFrom tx index (input :: rest)
      ↔ Script.opens input.unlock.script coin.output.lock tx index = .ok true
        ∧ view.AuthorizedFrom tx (index + 1) rest := by
  constructor
  · intro h
    obtain ⟨found, hf, ho⟩ := h 0 input rfl
    rw [hc] at hf
    cases hf
    refine ⟨ho, fun k other hk => ?_⟩
    rw [Nat.add_right_comm]
    exact h (k + 1) other hk
  · intro h k other hk
    cases k with
    | zero =>
      cases hk
      exact ⟨coin, hc, h.1⟩
    | succ k =>
      rw [← Nat.add_assoc, Nat.add_right_comm]
      exact h.2 k other hk

/-- If the coins are there, the scripts can only fail to open them. -/
theorem checkScriptsFrom_cases {inputs : List Input} (hs : view.Sees (inputs.map (·.prevout)))
    (index : Nat) :
    (view.AuthorizedFrom tx index inputs ∧ view.checkScriptsFrom tx index inputs = .valid)
      ∨ ¬view.AuthorizedFrom tx index inputs
        ∧ view.checkScriptsFrom tx index inputs = .invalid .badTransaction := by
  induction inputs generalizing index with
  | nil =>
    refine Or.inl ⟨?_, rfl⟩
    intro k input hk
    cases hk
  | cons input rest ih =>
    obtain ⟨⟨coin, hc⟩, hr⟩ := List.forall_mem_cons.mp hs
    rw [authorizedFrom_cons hc]
    simp only [checkScriptsFrom, hc]
    by_cases ho : Script.opens input.unlock.script coin.output.lock tx index = .ok true
    · simpa [ho] using ih hr (index + 1)
    · refine Or.inr ⟨fun h => ho h.1, ?_⟩
      split
      · contradiction
      · rfl

theorem verify_of_funded (hc : tx.isCoinbase = false) {left : Amount}
    (h : view.checkInputs tx = (.valid, left)) :
    (view.Authorized tx ∧ view.verify tx = .valid)
      ∨ ¬view.Authorized tx ∧ view.verify tx = .invalid .badTransaction := by
  have ha : view.Authorized tx ↔ view.AuthorizedFrom tx 0 tx.inputs := by
    simp [Authorized, AuthorizedFrom]
  have hv : view.verify tx = view.checkScriptsFrom tx 0 tx.inputs := by
    simp [verify, hc, h, checkScripts]
  rw [ha, hv]
  exact checkScriptsFrom_cases ((checkInputs_eq_valid_iff hc).mp h).1.visible 0

theorem verify_of_unfunded (hc : tx.isCoinbase = false) {reason : RejectReason} {left : Amount}
    (h : view.checkInputs tx = (.invalid reason, left)) : view.verify tx = .invalid reason := by
  simp [verify, hc, h]

end CoinView
open CoinView

/-- The inputs of a spend are accepted exactly if the spend is funded, and the fee is then the exact
difference, within the money range; else there is no fee, and the first rule that is broken is the
reason, which is never one about the fee. The order of the inputs does not matter to this. The spend
is accepted as a whole exactly if besides every input opens the lock of its coin; if that alone is
wanting, be it by a refusal or by a fault, it is refused as a bad transaction. -/
theorem funding_decided_exactly (view : CoinView) (inputs : List Input) (outputs : List Output) :
    let tx := Transaction.spend inputs outputs
    ((∃ left, view.checkInputs tx = (.valid, left)) ↔ view.Funded tx)
      ∧ (∀ left, view.checkInputs tx = (.valid, left) →
        left.toInt = view.worthAt tx.prevouts - worthOf outputs ∧ WithinMoney left.toInt)
      ∧ (∀ reason left, view.checkInputs tx = (.invalid reason, left)
        ↔ view.Unfunded tx reason ∧ left = 0)
      ∧ (view.checkInputs tx).1 ≠ .invalid .feeOutOfRange
      ∧ (∀ others, others.Perm inputs →
        view.checkInputs (.spend others outputs) = view.checkInputs tx)
      ∧ (view.verify tx = .valid ↔ (view.checkInputs tx).1 = .valid ∧ view.Authorized tx)
      ∧ ((view.checkInputs tx).1 = .valid → ¬view.Authorized tx →
        view.verify tx = .invalid .badTransaction)
      ∧ ∀ reason, (view.checkInputs tx).1 = .invalid reason → view.verify tx = .invalid reason := by
  intro tx
  have hc : tx.isCoinbase = false := rfl
  refine ⟨exists_checkInputs_iff hc, ?_, fun _ _ => checkInputs_eq_invalid_iff hc, ?_, ?_, ?_, ?_,
    ?_⟩
  · intro left h
    obtain ⟨hf, hl⟩ := (checkInputs_eq_valid_iff hc).mp h
    exact ⟨hl, hl ▸ hf.within⟩
  · intro h
    have hu := ((checkInputs_eq_invalid_iff hc).mp (Prod.ext h rfl)).1
    cases hu
  · intro others hp
    exact checkInputs_perm (hp.map _) rfl rfl hc
  · cases h : view.checkInputs tx with
    | mk verdict left =>
      cases verdict with
      | valid =>
        obtain ⟨ha, hv⟩ | ⟨hn, hv⟩ := verify_of_funded hc h
        · simp [ha, hv]
        · simp [hn, hv]
      | invalid reason => simp [verify_of_unfunded hc h]
  · intro h hn
    obtain ⟨ha, _⟩ | ⟨_, hv⟩ := verify_of_funded hc (Prod.ext h rfl)
    · exact absurd ha hn
    · exact hv
  · intro reason h
    exact verify_of_unfunded hc (Prod.ext h rfl)

/-- A coin of seven under no lock, one of eight under a lock that is at fault, and one worth less
than nothing. -/
def oddCoins : CoinMap :=
  (((∅ : CoinMap).insert ⟨sha256 [1], 0⟩ ⟨⟨7, []⟩, false, false⟩).insert
    ⟨sha256 [2], 0⟩ ⟨⟨8, [.select]⟩, false, false⟩).insert
    ⟨sha256 [3], 0⟩ ⟨⟨-1, []⟩, false, false⟩

def spendFaulty : List Input :=
  [⟨⟨sha256 [1], 0⟩, ⟨[], [1]⟩⟩, ⟨⟨sha256 [2], 0⟩, ⟨[], [1]⟩⟩]

/-- The coin of less than nothing, and one that is not there. -/
def spendMissing : List Input :=
  [⟨⟨sha256 [3], 0⟩, ⟨[], [1]⟩⟩, ⟨⟨sha256 [4], 0⟩, ⟨[], [1]⟩⟩]

theorem oddCoins_funding :
    (ledger oddCoins).checkInputs (.spend spendFaulty.reverse [⟨13, []⟩]) = (.valid, 2)
      ∧ (ledger oddCoins).Funded (.spend spendFaulty [⟨13, []⟩])
      ∧ ¬(ledger oddCoins).Authorized (.spend spendFaulty [⟨13, []⟩])
      ∧ (ledger oddCoins).verify (.spend spendFaulty [⟨13, []⟩]) = .invalid .badTransaction
      ∧ (ledger oddCoins).Unfunded (.spend spendMissing []) .inputsMissingOrSpent := by
  have hv : (ledger oddCoins).checkInputs (.spend spendFaulty [⟨13, []⟩]) = (.valid, 2) := by
    decide +kernel
  have hb : (ledger oddCoins).verify (.spend spendFaulty [⟨13, []⟩]) ≠ .valid := by
    decide +kernel
  have hm : (ledger oddCoins).checkInputs (.spend spendMissing [])
      = (.invalid .inputsMissingOrSpent, 0) := by
    decide +kernel
  obtain ⟨hfunded, _, _, _, hperm, hverify, hbad, _⟩ :=
    funding_decided_exactly (ledger oddCoins) spendFaulty [⟨13, []⟩]
  obtain ⟨_, _, hunfunded, _⟩ := funding_decided_exactly (ledger oddCoins) spendMissing []
  have hone := congrArg Prod.fst hv
  have hn : ¬(ledger oddCoins).Authorized (.spend spendFaulty [⟨13, []⟩]) := fun ha =>
    hb (hverify.mpr ⟨hone, ha⟩)
  exact ⟨(hperm _ (List.reverse_perm _)).trans hv, hfunded.mp ⟨2, hv⟩, hn, hbad hone hn,
    ((hunfunded _ 0).mp hm).1⟩

end CoinLedger
