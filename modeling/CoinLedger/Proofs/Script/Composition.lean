import CoinLedger.Proofs.Script.Depth

/-! Scripts put together. A second script goes on from the stack that the first leaves, as if that
stack had been pushed for it, and does not run if the first has ended early. What lies below the
items that a script works on is neither read nor changed. -/
namespace CoinLedger

/-- The same fault, so many opcodes later. -/
def Fault.later (count : Nat) (fault : Fault) : Fault :=
  { fault with position := fault.position + count }

namespace Script
variable {tx : Transaction} {input position : Nat} {stack : Stack} {script : Script}

theorem runFrom_add (tx : Transaction) (input position : Nat) (stack : Stack) (script : Script)
    (count : Nat) : runFrom tx input (position + count) stack script
      = (runFrom tx input position stack script).mapError (Fault.later count) := by
  apply runFrom_eq_mapError
  · intro opcode _ found
    rfl
  · intro more opcode available
    rw [Fault.later, Nat.add_right_comm]

theorem eval_pushes_append (tx : Transaction) (input : Nat) (items : List Bytes) (rest : Script) :
    eval (pushes items ++ rest) tx input
      = runFrom tx input items.length items.reverse rest := by
  rw [eval, runFrom_pushes_append, Nat.zero_add, List.append_nil]

theorem depth_le_length (script : Script) : depth script ≤ script.length := by
  induction script with
  | nil => exact Int.le_refl 0
  | cons opcode rest ih =>
    have ho : opcode.netEffect ≤ 1 := by
      cases opcode <;> simp [Opcode.netEffect]
    rw [depth_cons, List.length_cons]
    omega

/-- A script leaves no more items than it has opcodes. -/
theorem length_le_of_eval (h : eval script tx input = .ok ⟨true, stack⟩) :
    stack.length ≤ script.length := by
  have hd := depth_le_length script
  rw [← length_of_eval h] at hd
  exact Int.ofNat_le.mp hd

/-- A run that ends without a fault does the same above any other items. -/
theorem runFrom_above {outcome : Outcome}
    (h : runFrom tx input position stack script = .ok outcome) (start : Nat) (below : Stack) :
    runFrom tx input start (stack ++ below) script
      = .ok ⟨outcome.valid, outcome.stack ++ below⟩ := by
  -- The two runs count their positions apart, which only a fault would show.
  induction script generalizing position start stack with
  | nil =>
    cases h
    rfl
  | cons opcode rest ih =>
    rw [runFrom] at h ⊢
    cases hs : opcode.step tx stack with
    | underflow => simp [hs] at h
    | halt left =>
      simp only [hs, Except.ok.injEq] at h
      rw [Opcode.step_append_of_halt hs, ← h]
    | next next =>
      simp only [hs] at h
      rw [Opcode.step_append hs]
      exact ih h (start + 1)

/-- If a script ends early, another after it does not run, and if it completes, the other ends as it
does on a stack that was pushed item by item; but a fault is reported as many opcodes later as the
script is longer than the pushes. -/
theorem eval_append_goes_on (a b : Script) (tx : Transaction) (input : Nat) :
    (∀ fault, eval a tx input = .error fault → eval (a ++ b) tx input = .error fault)
      ∧ (∀ left, eval a tx input = .ok ⟨false, left⟩ →
        eval (a ++ b) tx input = .ok ⟨false, left⟩)
      ∧ ∀ stack, eval a tx input = .ok ⟨true, stack⟩ → stack.length ≤ a.length
        ∧ eval (a ++ b) tx input = (eval (pushes stack.reverse ++ b) tx input).mapError
          (Fault.later (a.length - stack.length)) := by
  have ha := runFrom_append tx input 0 [] a b
  rw [← eval, ← eval, Nat.zero_add] at ha
  refine ⟨?_, ?_, ?_⟩
  · intro fault h
    rw [ha, h]
    rfl
  · intro left h
    rw [ha, h]
    rfl
  · intro stack h
    have hle := length_le_of_eval h
    refine ⟨hle, ?_⟩
    calc
      eval (a ++ b) tx input = runFrom tx input a.length stack b := by
        rw [ha, h]
        rfl
      _ = runFrom tx input (stack.length + (a.length - stack.length)) stack b := by
        rw [Nat.add_sub_cancel' hle]
      _ = (eval (pushes stack.reverse ++ b) tx input).mapError
          (Fault.later (a.length - stack.length)) := by
        rw [runFrom_add, eval_pushes_append, List.length_reverse, List.reverse_reverse]

/-- Leaves two items after four opcodes. -/
def comparingTwice : Script :=
  [.push [2], .push [3], .geq, .dup]

theorem comparingTwice_goes_on :
    eval (comparingTwice ++ [.push [], .verify]) (.coinbase []) 5 = .ok ⟨false, [[1], [1]]⟩
      ∧ eval (comparingTwice ++ [.eq, .sha256, .select]) (.coinbase []) 5
        = .error ⟨5, 6, .select, 1⟩
      ∧ eval ([.push [0], .verify] ++ comparingTwice) (.coinbase []) 5 = .ok ⟨false, []⟩
      ∧ eval ([.push [], .eq] ++ comparingTwice) (.coinbase []) 5 = .error ⟨5, 1, .eq, 1⟩ := by
  have hc : eval comparingTwice (.coinbase []) 5 = .ok ⟨true, [[1], [1]]⟩ := by decide +kernel
  have hhalt : eval (pushes [[1], [1]] ++ [.push [], .verify]) (.coinbase []) 5
      = .ok ⟨false, [[1], [1]]⟩ := by decide +kernel
  have hfault : eval (pushes [[1], [1]] ++ [.eq, .sha256, .select]) (.coinbase []) 5
      = .error ⟨5, 4, .select, 1⟩ := by decide +kernel
  refine ⟨?_, ?_, ?_, ?_⟩
  · rw [((eval_append_goes_on _ _ _ _).2.2 _ hc).2]
    exact congrArg (Except.mapError (Fault.later 2)) hhalt
  · rw [((eval_append_goes_on _ _ _ _).2.2 _ hc).2]
    exact congrArg (Except.mapError (Fault.later 2)) hfault
  · exact (eval_append_goes_on _ _ _ _).2.1 _ (by decide +kernel)
  · exact (eval_append_goes_on _ _ _ _).1 _ (by decide +kernel)

/-- A script that ends without a fault ends the same way above any items. They stay where they are,
and whether the outcome is accepted does not depend on them unless the script leaves nothing. -/
theorem eval_above_items (script : Script) (items : List Bytes) (tx : Transaction) (input : Nat)
    {outcome : Outcome} (h : eval script tx input = .ok outcome) :
    ∃ above, eval (pushes items ++ script) tx input = .ok above
      ∧ above.valid = outcome.valid ∧ above.stack = outcome.stack ++ items.reverse
      ∧ (outcome.stack ≠ [] → above.accepted = outcome.accepted) := by
  have ha := runFrom_above h items.length items.reverse
  rw [List.nil_append, ← eval_pushes_append] at ha
  refine ⟨_, ha, rfl, rfl, ?_⟩
  intro hne
  cases hs : outcome.stack with
  | nil => exact absurd hs hne
  | cons top rest => simp [Outcome.accepted, Outcome.top?, hs]

theorem comparingTwice_above :
    (∃ above, eval (pushes [[0], [7]] ++ comparingTwice) (.coinbase []) 0 = .ok above
        ∧ above.stack = [[1], [1], [7], [0]] ∧ above.accepted = true)
      ∧ ∃ above, eval (pushes [[9]] ++ [.push [0], .verify, .select]) (.coinbase []) 0 = .ok above
        ∧ above.valid = false ∧ above.stack = [[9]] := by
  have hc : eval comparingTwice (.coinbase []) 0 = .ok ⟨true, [[1], [1]]⟩ := by decide +kernel
  have hhalt : eval [.push [0], .verify, .select] (.coinbase []) 0 = .ok ⟨false, []⟩ := by
    decide +kernel
  obtain ⟨above, ha, _, hs, haccepted⟩ := eval_above_items _ [[0], [7]] _ _ hc
  obtain ⟨other, ho, hv, hl, _⟩ := eval_above_items _ [[9]] _ _ hhalt
  exact ⟨⟨above, ha, hs, (haccepted (by decide)).trans (by decide +kernel)⟩, other, ho, hv, hl⟩

end Script
end CoinLedger
