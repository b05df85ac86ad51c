import Mathlib.Algebra.Ring.Int.Defs
import CoinLedger.Script.Machine

/-! Runs of the script machine, from what one opcode does. An opcode that finds the items that it
needs either halts at a zero or puts others in their place, and what lies below has no part in
this. A run over two scripts is a run over the first and then, unless it has ended, over the
second; where a run begins shows in the places that faults report, and in nothing else. -/
namespace CoinLedger

namespace Opcode

/-- By how much an opcode that goes through changes the depth of the stack. -/
def netEffect : Opcode → Int
  | push _ | dup => 1
  | sha256 | sha1 | hash160 => 0
  | geq | eq | checkSig | verify => -1
  | select => -2

variable {tx : Transaction} {opcode : Opcode} {stack : Stack}

theorem step_eq_halt_iff {left : Stack} : opcode.step tx stack = .halt left
    ↔ opcode = verify ∧ ∃ zero, isZero zero = true ∧ stack = zero :: left := by
  constructor
  · intro h
    match opcode, stack with
    | verify, top :: rest =>
      cases hz : isZero top with
      | true =>
        simp only [step, hz, if_true, Step.halt.injEq] at h
        exact ⟨rfl, top, hz, by rw [h]⟩
      | false => simp [step, hz] at h
    | push _, _ => cases h
    | dup, _ :: _ | sha256, _ :: _ | sha1, _ :: _ | hash160, _ :: _ => cases h
    | geq, _ :: _ :: _ | eq, _ :: _ :: _ | checkSig, _ :: _ :: _ => cases h
    | select, _ :: _ :: _ :: _ => cases h
  · intro h
    obtain ⟨rfl, zero, hz, rfl⟩ := h
    simp [step, hz]

/-- An opcode that goes through takes what it needs and puts other items there, whatever lies
below. -/
theorem exists_put_of_step {next : Stack} (h : opcode.step tx stack = .next next) :
    ∃ taken put rest, stack = taken ++ rest ∧ next = put ++ rest ∧ taken.length = opcode.needs
      ∧ (put.length : Int) = taken.length + opcode.netEffect
      ∧ ∀ below, opcode.step tx (taken ++ below) = .next (put ++ below) := by
  -- No case for a stack that is too short: there the opcode does not go through.
  match opcode, stack with
  | push literal, rest =>
    cases h
    exact ⟨[], [literal], rest, rfl, rfl, rfl, rfl, fun _ => rfl⟩
  | dup, x :: rest =>
    cases h
    exact ⟨[x], [x, x], rest, rfl, rfl, rfl, rfl, fun _ => rfl⟩
  | sha256, x :: rest | sha1, x :: rest | hash160, x :: rest =>
    cases h
    exact ⟨[x], [_], rest, rfl, rfl, rfl, rfl, fun _ => rfl⟩
  | geq, x :: y :: rest | eq, x :: y :: rest | checkSig, x :: y :: rest =>
    cases h
    exact ⟨[x, y], [_], rest, rfl, rfl, rfl, rfl, fun _ => rfl⟩
  | verify, x :: rest =>
    have hz : isZero x = false := by
      cases hz : isZero x with
      | false => rfl
      | true => simp [step, hz] at h
    simp only [step, hz, Bool.false_eq_true, if_false, Step.next.injEq] at h
    exact ⟨[x], [], rest, rfl, h.symm, rfl, rfl, fun below => by simp [step, hz]⟩
  | select, x :: y :: z :: rest =>
    cases h
    exact ⟨[x, y, z], [_], rest, rfl, rfl, rfl, rfl, fun _ => rfl⟩

theorem length_of_step {next : Stack} (h : opcode.step tx stack = .next next) :
    (next.length : Int) = stack.length + opcode.netEffect := by
  obtain ⟨taken, put, rest, rfl, rfl, _, hp, _⟩ := exists_put_of_step h
  simp only [List.length_append, Int.natCast_add]
  omega

/-- An opcode that goes through does the same above any other items. -/
theorem step_append {next : Stack} (h : opcode.step tx stack = .next next) (below : Stack) :
    opcode.step tx (stack ++ below) = .next (next ++ below) := by
  obtain ⟨taken, put, rest, rfl, rfl, _, _, hs⟩ := exists_put_of_step h
  rw [List.append_assoc, List.append_assoc, hs]

theorem step_append_of_halt {left : Stack} (h : opcode.step tx stack = .halt left)
    (below : Stack) : opcode.step tx (stack ++ below) = .halt (left ++ below) := by
  obtain ⟨hv, zero, hz, hs⟩ := step_eq_halt_iff.mp h
  exact step_eq_halt_iff.mpr ⟨hv, zero, hz, by rw [hs, List.cons_append]⟩

end Opcode

namespace Script
variable {tx : Transaction} {input position : Nat} {stack : Stack}

theorem runFrom_of_next {next : Stack} {opcode : Opcode} {rest : Script}
    (h : opcode.step tx stack = .next next) :
    runFrom tx input position stack (opcode :: rest)
      = runFrom tx input (position + 1) next rest := by
  rw [runFrom, h]

theorem runFrom_append (tx : Transaction) (input position : Nat) (stack : Stack) (a b : Script) :
    runFrom tx input position stack (a ++ b)
      = (runFrom tx input position stack a).bind fun outcome =>
        if outcome.valid then runFrom tx input (position + a.length) outcome.stack b
        else .ok outcome := by
  induction a generalizing position stack with
  | nil => rfl
  | cons opcode rest ih =>
    rw [List.cons_append, runFrom, runFrom]
    cases opcode.step tx stack with
    | underflow => rfl
    | halt left => rfl
    | next next =>
      simp only [ih, List.length_cons, Nat.add_assoc, Nat.add_comm 1]

/-- A run completes exactly if its first part does, and the second from there. -/
theorem runFrom_append_completes_iff {a b : Script} {final : Stack} :
    runFrom tx input position stack (a ++ b) = .ok ⟨true, final⟩
      ↔ ∃ middle, runFrom tx input position stack a = .ok ⟨true, middle⟩
        ∧ runFrom tx input (position + a.length) middle b = .ok ⟨true, final⟩ := by
  rw [runFrom_append]
  cases runFrom tx input position stack a with
  | error fault => simp [Except.bind]
  | ok outcome =>
    cases outcome with
    | mk valid middle => cases valid <;> simp [Except.bind]

/-- Runs of one script on one stack by opcodes that do the same differ at most in the place that a
fault reports. -/
theorem runFrom_eq_mapError {script : Script} {t u : Transaction} {i j start : Nat}
    (place : Fault → Fault)
    (hs : ∀ opcode ∈ script, ∀ stack, opcode.step t stack = opcode.step u stack)
    (hp : ∀ count opcode available, place ⟨i, position + count, opcode, available⟩
      = ⟨j, start + count, opcode, available⟩) :
    runFrom u j start stack script = (runFrom t i position stack script).mapError place := by
  induction script generalizing position start stack with
  | nil => rfl
  | cons opcode rest ih =>
    obtain ⟨ho, hr⟩ := List.forall_mem_cons.mp hs
    rw [runFrom, runFrom, ho]
    cases opcode.step u stack with
    | underflow => exact congrArg Except.error (hp 0 opcode stack.length).symm
    | halt left => rfl
    | next next =>
      apply ih hr
      intro count other available
      rw [Nat.add_right_comm, Nat.add_right_comm start]
      exact hp (count + 1) other available

/-- Put the items on the stack, the first of them lowest. -/
def pushes (items : List Bytes) : Script :=
  items.map .push

theorem runFrom_pushes_append (tx : Transaction) (input position : Nat) (stack : Stack)
    (items : List Bytes) (rest : Script) :
    runFrom tx input position stack (pushes items ++ rest)
      = runFrom tx input (position + items.length) (items.reverse ++ stack) rest := by
  induction items generalizing position stack with
  | nil => rfl
  | cons item items ih =>
    have hs : (Opcode.push item).step tx stack = .next (item :: stack) := rfl
    have hi := ih (position + 1) (item :: stack)
    rw [pushes, List.map_cons, List.cons_append, runFrom_of_next hs, List.reverse_cons,
      List.append_assoc, List.length_cons, Nat.add_comm items.length, ← Nat.add_assoc]
    exact hi

end Script
end CoinLedger
