import CoinLedger.Ledger.Verify
import CoinLedger.Proofs.Script.Run
import CoinLedger.Proofs.Transaction.SignedPart

/-! What scripts see of the transaction that they run for: its signature hash, if they check a
signature, and nothing else. Which input they run for shows in the faults alone. The signature hash
covers no unlock, so what one input brings has no part in what is decided about another. -/
namespace CoinLedger

/-- The same fault, reported for another input. -/
def Fault.atInput (input : Nat) (fault : Fault) : Fault :=
  { fault with input := input }

section Step
variable {t u : Transaction}

theorem Opcode.step_eq_of_signatureHash_eq (h : t.signatureHash = u.signatureHash)
    (opcode : Opcode) (stack : Stack) : opcode.step t stack = opcode.step u stack := by
  unfold step
  rw [h]

theorem Opcode.step_eq_of_ne_checkSig {opcode : Opcode} (h : opcode ≠ .checkSig)
    (stack : Stack) : opcode.step t stack = opcode.step u stack := by
  match opcode, stack with
  | checkSig, _ => exact absurd rfl h
  | push _, _ => rfl
  | dup, [] | sha256, [] | sha1, [] | hash160, [] | verify, [] => rfl
  | dup, _ :: _ | sha256, _ :: _ | sha1, _ :: _ | hash160, _ :: _ | verify, _ :: _ => rfl
  | geq, [] | eq, [] | geq, [_] | eq, [_] | geq, _ :: _ :: _ | eq, _ :: _ :: _ => rfl
  | select, [] | select, [_] | select, [_, _] | select, _ :: _ :: _ :: _ => rfl

end Step

namespace Script
variable {t u : Transaction}

theorem eval_atInput {script : Script}
    (h : t.signatureHash = u.signatureHash ∨ .checkSig ∉ script) (i j : Nat) :
    eval script u j = (eval script t i).mapError (Fault.atInput j) := by
  apply runFrom_eq_mapError
  · intro opcode hm stack
    cases h with
    | inl hh => exact Opcode.step_eq_of_signatureHash_eq hh opcode stack
    | inr hn =>
      apply Opcode.step_eq_of_ne_checkSig
      intro ho
      exact hn (ho ▸ hm)
  · intro count opcode available
    rfl

theorem opens_atInput (h : t.signatureHash = u.signatureHash) (unlock lock : Script) (i j : Nat) :
    opens unlock lock u j = (opens unlock lock t i).mapError (Fault.atInput j) := by
  rw [opens, opens, eval_atInput (.inl h) i j]
  cases eval (unlock ++ lock) t i with
  | error fault => rfl
  | ok outcome => rfl

end Script

theorem Transaction.getElem?_inputs_withUnlock (tx : Transaction) {index k : Nat}
    (hk : k ≠ index) (unlock : Unlock) :
    (tx.withUnlock index unlock).inputs[k]? = tx.inputs[k]? := by
  cases tx with
  | coinbase outputs => rfl
  | spend inputs outputs => simp [withUnlock, Transaction.inputs, hk.symm]

namespace CoinView
variable {view : CoinView} {tx : Transaction}

/-- The verdict on the one input at a position, if there is one. -/
def checkScriptAt (view : CoinView) (tx : Transaction) (index : Nat) : Verdict :=
  view.checkScriptsFrom tx index tx.inputs[index]?.toList

theorem checkScriptsFrom_cons (view : CoinView) (tx : Transaction) (index : Nat) (input : Input)
    (rest : List Input) : view.checkScriptsFrom tx index (input :: rest)
      = match view.checkScriptsFrom tx index [input] with
        | .valid => view.checkScriptsFrom tx (index + 1) rest
        | .invalid reason => .invalid reason := by
  simp only [checkScriptsFrom]
  cases view.coin? input.prevout with
  | none => rfl
  | some coin =>
    dsimp only
    cases Script.opens input.unlock.script coin.output.lock tx index with
    | error fault => rfl
    | ok accepted => cases accepted <;> rfl

theorem checkScriptsFrom_eq_valid_iff {index : Nat} {inputs : List Input} :
    view.checkScriptsFrom tx index inputs = .valid
      ↔ ∀ k, view.checkScriptsFrom tx (index + k) inputs[k]?.toList = .valid := by
  induction inputs generalizing index with
  | nil => simp [checkScriptsFrom]
  | cons input rest ih =>
    rw [checkScriptsFrom_cons, ← Nat.and_forall_add_one]
    simp only [List.getElem?_cons_zero, List.getElem?_cons_succ, Option.toList_some,
      Nat.add_zero]
    cases view.checkScriptsFrom tx index [input] with
    | valid => simpa [Nat.add_assoc, Nat.add_comm 1] using @ih (index + 1)
    | invalid reason => simp

theorem checkScriptsFrom_eq_invalid_iff {index : Nat} {inputs : List Input}
    {reason : RejectReason} : view.checkScriptsFrom tx index inputs = .invalid reason
      ↔ ∃ k, view.checkScriptsFrom tx (index + k) inputs[k]?.toList = .invalid reason
        ∧ ∀ earlier < k,
          view.checkScriptsFrom tx (index + earlier) inputs[earlier]?.toList = .valid := by
  induction inputs generalizing index with
  | nil => simp [checkScriptsFrom]
  | cons input rest ih =>
    rw [checkScriptsFrom_cons, ← Nat.or_exists_add_one]
    simp only [Nat.forall_lt_succ_left, List.getElem?_cons_zero, List.getElem?_cons_succ,
      Option.toList_some, Nat.add_zero]
    cases view.checkScriptsFrom tx index [input] with
    | valid => simpa [Nat.add_assoc, Nat.add_comm 1] using @ih (index + 1)
    | invalid other => simp

theorem checkScriptsFrom_eq_of_signatureHash_eq {t u : Transaction}
    (h : t.signatureHash = u.signatureHash) (index : Nat) (inputs : List Input) :
    view.checkScriptsFrom u index inputs = view.checkScriptsFrom t index inputs := by
  induction inputs generalizing index with
  | nil => rfl
  | cons input rest ih =>
    rw [checkScriptsFrom, checkScriptsFrom, ih]
    cases view.coin? input.prevout with
    | none => rfl
    | some coin =>
      dsimp only
      rw [Script.opens_atInput h _ _ index index]
      cases Script.opens input.unlock.script coin.output.lock t index with
      | error fault => rfl
      | ok accepted => rfl

/-- What unlocks one input has no part in the verdict on another. -/
theorem checkScriptAt_withUnlock (view : CoinView) (tx : Transaction) {index k : Nat}
    (hk : k ≠ index) (unlock : Unlock) :
    view.checkScriptAt (tx.withUnlock index unlock) k = view.checkScriptAt tx k := by
  have hs := (tx.sameButUnlocks_withUnlock index unlock).signatureHash_eq
  rw [checkScriptAt, checkScriptAt, tx.getElem?_inputs_withUnlock hk,
    checkScriptsFrom_eq_of_signatureHash_eq hs.symm]

end CoinView
open CoinView

/-- A script that checks no signature ends the same way for any two transactions, and any script
does for two with one signature hash, up to the input that a fault reports. So another unlock at one
input changes no verdict on any other; and the verdict on all inputs is the first of these that is a
refusal, if there is one. -/
theorem scripts_see_signatureHash_only :
    (∀ (script : Script) (t u : Transaction) (i j : Nat),
      t.signatureHash = u.signatureHash ∨ .checkSig ∉ script →
        script.eval u j = (script.eval t i).mapError (Fault.atInput j))
      ∧ ∀ (view : CoinView) (tx : Transaction),
        (∀ (index k : Nat) (unlock : Unlock), k ≠ index →
          view.checkScriptAt (tx.withUnlock index unlock) k = view.checkScriptAt tx k)
        ∧ (view.checkScripts tx = .valid ↔ ∀ k, view.checkScriptAt tx k = .valid)
        ∧ ∀ reason, view.checkScripts tx = .invalid reason
          ↔ ∃ k, view.checkScriptAt tx k = .invalid reason
            ∧ ∀ earlier < k, view.checkScriptAt tx earlier = .valid := by
  refine ⟨?_, ?_⟩
  · intro script t u i j h
    exact Script.eval_atInput h i j
  · intro view tx
    refine ⟨?_, ?_, ?_⟩
    · intro index k unlock hk
      exact view.checkScriptAt_withUnlock tx hk unlock
    · simpa [checkScripts, checkScriptAt] using
        @checkScriptsFrom_eq_valid_iff view tx 0 tx.inputs
    · intro reason
      simpa [checkScripts, checkScriptAt] using
        @checkScriptsFrom_eq_invalid_iff view tx 0 tx.inputs reason

/-- A coin under no lock, at the place that the first input of the half-signed spend names. -/
def coinForFirst : CoinMap :=
  (∅ : CoinMap).insert ⟨sha256 [1], 0⟩ ⟨⟨7, []⟩, false, false⟩

/-- The check of a signature, and then a comparison that lacks an item. -/
def checkThenCompare : Script :=
  [.push [1], .push [2], .checkSig, .eq]

theorem halfSigned_resigned :
    halfSigned.signatureHash = (halfSigned.withUnlock 1 ⟨[3], []⟩).signatureHash
      ∧ checkThenCompare.eval (halfSigned.withUnlock 1 ⟨[3], []⟩) 7 = .error ⟨7, 3, .eq, 1⟩
      ∧ (Script.payToPreimage (sha256 [])).eval halfSigned 1 = .error ⟨1, 0, .sha256, 0⟩
      ∧ (ledger coinForFirst).checkScriptAt (halfSigned.withUnlock 1 ⟨[3], []⟩) 0 = .valid
      ∧ (ledger coinForFirst).checkScripts halfSigned = .invalid .inputsMissingOrSpent := by
  obtain ⟨hscripts, hinputs⟩ := scripts_see_signatureHash_only
  obtain ⟨hunlock, _, hfirst⟩ := hinputs (ledger coinForFirst) halfSigned
  have hs : halfSigned.signatureHash = (halfSigned.withUnlock 1 ⟨[3], []⟩).signatureHash :=
    (halfSigned.sameButUnlocks_withUnlock 1 ⟨[3], []⟩).signatureHash_eq.symm
  have hfault : checkThenCompare.eval halfSigned 0 = .error ⟨0, 3, .eq, 1⟩ := by decide +kernel
  have hpreimage : (Script.payToPreimage (sha256 [])).eval (.coinbase []) 0
      = .error ⟨0, 0, .sha256, 0⟩ := by decide +kernel
  have hopen : (ledger coinForFirst).checkScriptAt halfSigned 0 = .valid := by decide +kernel
  have hmissing : (ledger coinForFirst).checkScriptAt halfSigned 1
      = .invalid .inputsMissingOrSpent := by decide +kernel
  refine ⟨hs, ?_, ?_, (hunlock 1 0 _ (by decide)).trans hopen, (hfirst _).mpr ⟨1, hmissing, ?_⟩⟩
  · rw [hscripts _ _ _ 0 7 (.inl hs), hfault]
    rfl
  · rw [hscripts _ (.coinbase []) halfSigned 0 1 (.inr (by decide +kernel)), hpreimage]
    rfl
  · intro earlier hl
    cases Nat.lt_one_iff.mp hl
    exact hopen

end CoinLedger
