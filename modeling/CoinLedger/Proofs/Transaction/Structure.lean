import CoinLedger.Proofs.Value.Guarded

/-! The rules for a transaction by itself, each said without the loop that tries them. A sound
transaction is one whose outputs are worth no more together than the top of the money range, none of
them less than nothing; of a refused one the reason is the rule that is broken first, and among the
outputs the first that breaks one decides. -/
namespace CoinLedger

/-- The rule that an output breaks if it stands behind outputs of this exact sum. -/
def Output.fault? (before : Int) (output : Output) : Option RejectReason :=
  if output.value.toInt < 0 then some .outputNegative
  else if maxMoney.toInt < output.value.toInt then some .outputTooLarge
  else if maxMoney.toInt < before + output.value.toInt then some .outputTotalTooLarge
  else none

/-- The rule that the output at a position breaks, if all of them stand behind outputs of this exact
sum. -/
def faultAt? (before : Int) (outputs : List Output) (position : Nat) : Option RejectReason :=
  outputs[position]?.bind fun output => output.fault? (before + worthOf (outputs.take position))

/-- The first output at fault breaks this rule. -/
def FirstFault (before : Int) (outputs : List Output) (reason : RejectReason) : Prop :=
  ∃ position, faultAt? before outputs position = some reason
    ∧ ∀ earlier < position, faultAt? before outputs earlier = none

theorem faultAt?_zero (before : Int) (output : Output) (rest : List Output) :
    faultAt? before (output :: rest) 0 = output.fault? before := by
  simp [faultAt?]

theorem faultAt?_succ (before : Int) (output : Output) (rest : List Output) (position : Nat) :
    faultAt? before (output :: rest) (position + 1)
      = faultAt? (before + output.value.toInt) rest position := by
  simp [faultAt?, Int.add_assoc]

theorem Output.fault?_eq_none_iff {before : Int} {output : Output} (h0 : 0 ≤ before) :
    output.fault? before = none ↔ WithinMoney output.value.toInt
      ∧ WithinMoney (before + output.value.toInt) := by
  rw [fault?]
  split
  · exact iff_of_false (by simp) fun hw => absurd hw.1.1 (by omega)
  · split
    · exact iff_of_false (by simp) fun hw => absurd hw.1.2 (by omega)
    · split
      · exact iff_of_false (by simp) fun hw => absurd hw.2.2 (by omega)
      · exact iff_of_true rfl ⟨⟨by omega, by omega⟩, by omega, by omega⟩

/-- What the loop over the outputs does with one of them. -/
theorem checkOutputs_cons_cases {total : Amount} (ht : WithinMoney total.toInt) (output : Output)
    (rest : List Output) :
    (∃ reason, output.fault? total.toInt = some reason
        ∧ checkOutputs total (output :: rest) = .invalid reason)
      ∨ output.fault? total.toInt = none ∧ ∃ next, addMoney total output.value = some next
        ∧ checkOutputs total (output :: rest) = checkOutputs next rest := by
  simp only [checkOutputs, Output.fault?, Int64.lt_iff_toInt_lt, Int64.toInt_zero]
  split
  · exact Or.inl ⟨_, rfl, rfl⟩
  · split
    · exact Or.inl ⟨_, rfl, rfl⟩
    · cases ha : addMoney total output.value with
      | none =>
        have hn := amount?_eq_none_iff.mp ha
        simp only [WithinMoney] at ht hn
        rw [if_pos (by omega)]
        exact Or.inl ⟨_, rfl, rfl⟩
      | some next =>
        have hw := (amount?_eq_some_iff.mp ha).1
        simp only [WithinMoney] at hw
        rw [if_neg (by omega)]
        exact Or.inr ⟨rfl, next, rfl, rfl⟩

theorem forall_faultAt?_cons {before : Int} {output : Output} {rest : List Output} :
    (∀ position, faultAt? before (output :: rest) position = none)
      ↔ output.fault? before = none
        ∧ ∀ position, faultAt? (before + output.value.toInt) rest position = none := by
  constructor
  · intro h
    refine ⟨faultAt?_zero before output rest ▸ h 0, fun position => ?_⟩
    rw [← faultAt?_succ]
    exact h (position + 1)
  · intro h position
    obtain ⟨hf, hr⟩ := h
    cases position with
    | zero => rw [faultAt?_zero, hf]
    | succ position => rw [faultAt?_succ, hr]

theorem firstFault_cons {before : Int} {output : Output} {rest : List Output}
    {reason : RejectReason} :
    FirstFault before (output :: rest) reason ↔ output.fault? before = some reason
      ∨ output.fault? before = none ∧ FirstFault (before + output.value.toInt) rest reason := by
  constructor
  · intro h
    obtain ⟨position, hp, he⟩ := h
    cases position with
    | zero => exact Or.inl (faultAt?_zero before output rest ▸ hp)
    | succ position =>
      refine Or.inr ⟨faultAt?_zero before output rest ▸ he 0 (Nat.zero_lt_succ position), position,
        faultAt?_succ before output rest position ▸ hp, fun earlier hl => ?_⟩
      rw [← faultAt?_succ]
      exact he (earlier + 1) (Nat.succ_lt_succ hl)
  · intro h
    obtain hf | ⟨hf, position, hp, he⟩ := h
    · refine ⟨0, (faultAt?_zero before output rest).trans hf, ?_⟩
      intro earlier hl
      cases hl
    · refine ⟨position + 1, (faultAt?_succ before output rest position).trans hp, ?_⟩
      intro earlier hl
      cases earlier with
      | zero => rw [faultAt?_zero, hf]
      | succ earlier => rw [faultAt?_succ, he earlier (Nat.lt_of_succ_lt_succ hl)]

theorem checkOutputs_eq_valid_iff {total : Amount} {outputs : List Output}
    (ht : WithinMoney total.toInt) :
    checkOutputs total outputs = .valid
      ↔ ∀ position, faultAt? total.toInt outputs position = none := by
  induction outputs generalizing total with
  | nil => simp [checkOutputs, faultAt?]
  | cons output rest ih =>
    rw [forall_faultAt?_cons]
    obtain ⟨reason, hf, hc⟩ | ⟨hf, next, ha, hc⟩ := checkOutputs_cons_cases ht output rest
    · simp [hf, hc]
    · obtain ⟨hw, he⟩ := amount?_eq_some_iff.mp ha
      rw [hc, ih (he ▸ hw), he]
      simp [hf]

theorem checkOutputs_eq_invalid_iff {total : Amount} {outputs : List Output}
    (ht : WithinMoney total.toInt) {reason : RejectReason} :
    checkOutputs total outputs = .invalid reason ↔ FirstFault total.toInt outputs reason := by
  induction outputs generalizing total with
  | nil => simp [checkOutputs, FirstFault, faultAt?]
  | cons output rest ih =>
    rw [firstFault_cons]
    obtain ⟨other, hf, hc⟩ | ⟨hf, next, ha, hc⟩ := checkOutputs_cons_cases ht output rest
    · simp [hf, hc]
    · obtain ⟨hw, he⟩ := amount?_eq_some_iff.mp ha
      rw [hc, ih (he ▸ hw), he]
      simp [hf]

/-- No output is at fault exactly if each of them and the sum of all is within the range. -/
theorem forall_faultAt?_iff {before : Int} {outputs : List Output} (hb : WithinMoney before) :
    (∀ position, faultAt? before outputs position = none)
      ↔ (∀ output ∈ outputs, WithinMoney output.value.toInt)
        ∧ before + worthOf outputs ≤ maxMoney.toInt := by
  induction outputs generalizing before with
  | nil => simpa [faultAt?] using hb.2
  | cons output rest ih =>
    rw [forall_faultAt?_cons, Output.fault?_eq_none_iff hb.1, List.forall_mem_cons, worthOf_cons,
      ← Int.add_assoc]
    constructor
    · intro h
      obtain ⟨⟨ho, hw⟩, hr⟩ := h
      obtain ⟨hrange, hsum⟩ := (ih hw).mp hr
      exact ⟨⟨ho, hrange⟩, hsum⟩
    · intro h
      obtain ⟨⟨ho, hrange⟩, hsum⟩ := h
      have h0 := worthOf_nonneg hrange
      have hw : WithinMoney (before + output.value.toInt) := by
        simp only [WithinMoney] at hb ho ⊢
        omega
      exact ⟨⟨ho, hw⟩, (ih hw).mpr ⟨hrange, hsum⟩⟩

/-- Past an output that is too large, by itself or with those before it, no sum is within the
range. -/
theorem not_partialSumsWithin_of_faultAt? {outputs : List Output} {position : Nat}
    {reason : RejectReason} (h : faultAt? 0 outputs position = some reason)
    (hr : reason ≠ .outputNegative) : ¬PartialSumsWithin outputs := by
  obtain ⟨output, ho, hf⟩ := Option.bind_eq_some_iff.mp h
  intro hp
  have hbefore := hp position
  have hafter := hp (position + 1)
  rw [List.take_add_one, ho, Option.toList_some, worthOf_append, worthOf_cons, worthOf_nil,
    Int.add_zero] at hafter
  simp only [WithinMoney, Output.fault?] at hbefore hafter hf
  split at hf
  · cases hf
    exact hr rfl
  · split at hf
    · omega
    · rw [if_neg (by omega)] at hf
      cases hf

namespace Transaction

/-- What the rules for a transaction by itself ask for. -/
structure Sound (tx : Transaction) : Prop where
  source : tx.isCoinbase = true ∨ tx.inputs ≠ []
  target : tx.outputs ≠ []
  inRange : ∀ output ∈ tx.outputs, WithinMoney output.value.toInt
  total_le : worthOf tx.outputs ≤ maxMoney.toInt
  distinct : tx.prevouts.Nodup

/-- The first rule that a transaction by itself breaks. -/
inductive Refused (tx : Transaction) : RejectReason → Prop
  | inputsEmpty (spends : tx.isCoinbase = false) (nothing : tx.inputs = []) :
    Refused tx .inputsEmpty
  | outputsEmpty (source : tx.isCoinbase = true ∨ tx.inputs ≠ []) (nothing : tx.outputs = []) :
    Refused tx .outputsEmpty
  | output {reason : RejectReason} (source : tx.isCoinbase = true ∨ tx.inputs ≠ [])
    (fault : FirstFault 0 tx.outputs reason) : Refused tx reason
  | inputsDuplicate (source : tx.isCoinbase = true ∨ tx.inputs ≠ []) (target : tx.outputs ≠ [])
    (faultless : ∀ position, faultAt? 0 tx.outputs position = none)
    (twice : ¬tx.prevouts.Nodup) : Refused tx .inputsDuplicate

theorem check_eq_valid_iff_sound {tx : Transaction} : tx.check = .valid ↔ tx.Sound := by
  rw [check_eq_valid_iff, checkOutputs_eq_valid_iff withinMoney_zero,
    forall_faultAt?_iff withinMoney_zero]
  constructor
  · intro h
    obtain ⟨hi, ho, ⟨hr, ht⟩, hd⟩ := h
    exact ⟨hi, ho, hr, by simpa using ht, hd⟩
  · intro h
    exact ⟨h.source, h.target, ⟨h.inRange, by simpa using h.total_le⟩, h.distinct⟩

theorem Sound.perm {tx other : Transaction} (h : tx.Sound)
    (hc : other.isCoinbase = tx.isCoinbase) (hi : other.inputs.Perm tx.inputs)
    (ho : other.outputs.Perm tx.outputs) : other.Sound where
  source := by
    rw [hc]
    exact h.source.imp_right fun hn he => hn (List.nil_perm.mp (he ▸ hi))
  target := fun he => h.target (List.nil_perm.mp (he ▸ ho))
  inRange := fun output hm => h.inRange output (ho.mem_iff.mp hm)
  total_le := worthOf_perm ho ▸ h.total_le
  distinct := (hi.map _).nodup_iff.mpr h.distinct

theorem refused_of_check {tx : Transaction} {reason : RejectReason}
    (h : tx.check = .invalid reason) : tx.Refused reason := by
  simp only [check, List.isEmpty_iff, Bool.and_eq_true, Bool.not_eq_true'] at h
  split at h
  · rename_i hi
    cases h
    exact .inputsEmpty hi.1 hi.2
  · rename_i hi
    have source : tx.isCoinbase = true ∨ tx.inputs ≠ [] := by
      simpa [or_iff_not_imp_left] using hi
    split at h
    · rename_i ho
      cases h
      exact .outputsEmpty source ho
    · rename_i ho
      cases hc : checkOutputs 0 tx.outputs with
      | invalid other =>
        simp only [hc, Verdict.invalid.injEq] at h
        exact .output source ((checkOutputs_eq_invalid_iff withinMoney_zero).mp (h ▸ hc))
      | valid =>
        have faultless := (checkOutputs_eq_valid_iff withinMoney_zero).mp hc
        simp only [hc] at h
        split at h
        · cases h
        · rename_i twice
          cases h
          exact .inputsDuplicate source ho faultless twice

theorem check_of_refused {tx : Transaction} {reason : RejectReason} (h : tx.Refused reason) :
    tx.check = .invalid reason := by
  have hpass : tx.isCoinbase = true ∨ tx.inputs ≠ [] →
      (!tx.isCoinbase && tx.inputs.isEmpty) = false := by
    intro source
    cases source with
    | inl hc => simp [hc]
    | inr hi => simp [hi]
  cases h with
  | inputsEmpty spends nothing => simp [check, spends, nothing]
  | outputsEmpty source nothing => simp [check, hpass source, nothing]
  | output source fault =>
    have hc := (checkOutputs_eq_invalid_iff withinMoney_zero).mpr fault
    have ho : tx.outputs ≠ [] := by
      intro he
      rw [he] at hc
      cases hc
    simp [check, hpass source, ho, hc]
  | inputsDuplicate source target faultless twice =>
    have hc := (checkOutputs_eq_valid_iff withinMoney_zero).mpr faultless
    simp [check, hpass source, target, hc, twice]

theorem check_eq_invalid_iff_refused {tx : Transaction} {reason : RejectReason} :
    tx.check = .invalid reason ↔ tx.Refused reason :=
  ⟨refused_of_check, check_of_refused⟩

/-- The reasons that have to do with a transaction by itself. -/
def structuralReasons : List RejectReason :=
  [.inputsEmpty, .outputsEmpty, .outputNegative, .outputTooLarge, .outputTotalTooLarge,
    .inputsDuplicate]

theorem mem_structuralReasons_of_refused {tx : Transaction} {reason : RejectReason}
    (h : tx.Refused reason) : reason ∈ structuralReasons := by
  cases h with
  | inputsEmpty | outputsEmpty | inputsDuplicate => decide
  | output _ fault =>
    obtain ⟨position, hp, _⟩ := fault
    obtain ⟨output, _, hf⟩ := Option.bind_eq_some_iff.mp hp
    rw [Output.fault?] at hf
    split at hf
    · cases hf
      decide
    · split at hf
      · cases hf
        decide
      · split at hf
        · cases hf
          decide
        · cases hf

theorem valueOut_of_refused {tx : Transaction} {reason : RejectReason} (h : tx.Refused reason)
    (hr : reason = .outputTooLarge ∨ reason = .outputTotalTooLarge) : tx.valueOut = none := by
  cases h with
  | inputsEmpty | outputsEmpty | inputsDuplicate => simp at hr
  | output _ fault =>
    obtain ⟨position, hp, _⟩ := fault
    apply valueOut_eq_none_iff.mpr
    apply not_partialSumsWithin_of_faultAt? hp
    intro hn
    simp [hn] at hr

end Transaction
open Transaction

/-- A transaction passes by itself exactly if it is sound, in whatever order it names its inputs and
outputs, and then the guarded sum of its outputs is their exact sum. One that does not pass is
refused for the first rule that it breaks; and if this is one about too large outputs, there is no
guarded sum either. -/
theorem structure_decided_exactly (tx : Transaction) :
    (tx.check = .valid ↔ tx.Sound)
      ∧ (∀ other : Transaction, other.isCoinbase = tx.isCoinbase → other.inputs.Perm tx.inputs →
        other.outputs.Perm tx.outputs → (other.check = .valid ↔ tx.check = .valid))
      ∧ (tx.check = .valid → ∃ sum, tx.valueOut = some sum ∧ sum.toInt = worthOf tx.outputs)
      ∧ (∀ reason, tx.check = .invalid reason ↔ tx.Refused reason)
      ∧ (tx.check = .invalid .outputTooLarge ∨ tx.check = .invalid .outputTotalTooLarge →
        tx.valueOut = none) := by
  refine ⟨check_eq_valid_iff_sound, ?_, ?_, fun _ => check_eq_invalid_iff_refused, ?_⟩
  · intro other hc hi ho
    rw [check_eq_valid_iff_sound, check_eq_valid_iff_sound]
    exact ⟨fun h => h.perm hc.symm hi.symm ho.symm, fun h => h.perm hc hi ho⟩
  · intro h
    obtain ⟨sum, hs⟩ := valueOut_of_check h
    exact ⟨sum, hs, toInt_valueOut hs⟩
  · intro h
    cases h with
    | inl hl => exact valueOut_of_refused (refused_of_check hl) (Or.inl rfl)
    | inr ht => exact valueOut_of_refused (refused_of_check ht) (Or.inr rfl)

/-- A spend of two coins for all the money there may be, and for nothing. -/
def allAndNothing : Transaction :=
  .spend [⟨⟨sha256 [1], 0⟩, .empty⟩, ⟨⟨sha256 [2], 0⟩, .empty⟩] [⟨maxMoney, []⟩, ⟨0, []⟩]

/-- The same spend in the other order. -/
def nothingAndAll : Transaction :=
  .spend [⟨⟨sha256 [2], 0⟩, .empty⟩, ⟨⟨sha256 [1], 0⟩, .empty⟩] [⟨0, []⟩, ⟨maxMoney, []⟩]

/-- A spend that names one coin twice. Its second output is one too many, its third is negative. -/
def manyFaults : Transaction :=
  .spend [⟨⟨sha256 [1], 0⟩, .empty⟩, ⟨⟨sha256 [1], 0⟩, .empty⟩]
    [⟨maxMoney, []⟩, ⟨1, []⟩, ⟨-1, []⟩]

theorem allAndNothing_sound_manyFaults_refused :
    allAndNothing.Sound ∧ nothingAndAll.check = .valid
      ∧ manyFaults.Refused .outputTotalTooLarge ∧ manyFaults.valueOut = none := by
  have hv : allAndNothing.check = .valid := by decide +kernel
  have hr : manyFaults.check = .invalid .outputTotalTooLarge := by decide
  have hi : nothingAndAll.inputs.Perm allAndNothing.inputs := .swap _ _ []
  have ho : nothingAndAll.outputs.Perm allAndNothing.outputs := .swap _ _ []
  obtain ⟨hsound, hperm, _⟩ := structure_decided_exactly allAndNothing
  obtain ⟨_, _, _, hrefused, hnone⟩ := structure_decided_exactly manyFaults
  exact ⟨hsound.mp hv, (hperm nothingAndAll (by decide) hi ho).mpr hv, (hrefused _).mp hr,
    hnone (Or.inr hr)⟩

end CoinLedger
