import Mathlib.Data.List.Induction
import CoinLedger.Proofs.Script.Run

/-! Faults and the depth of the stack. How deep the stack is before each opcode can be counted
without running the script; a run that gets there finds that depth. So a script can be at fault in
one place only, the first where the count is below what the opcode needs, and it gets there unless
a `verify` stops it before. -/
namespace CoinLedger

namespace Opcode

theorem needs_eq_of_tag_eq {x y : Opcode} (h : x.tag = y.tag) : x.needs = y.needs := by
  cases x <;> cases y <;> simp_all [tag, needs]

theorem netEffect_eq_of_tag_eq {x y : Opcode} (h : x.tag = y.tag) :
    x.netEffect = y.netEffect := by
  cases x <;> cases y <;> simp_all [tag, netEffect]

end Opcode

namespace Script

/-- The depth that a script leaves behind, counted from its opcodes; it may be below zero. -/
def depth (script : Script) : Int :=
  (script.map Opcode.netEffect).sum

/-- By the count, the opcode at a position does not find the items that it needs. -/
def shortAt (script : Script) (position : Nat) : Bool :=
  script[position]?.any fun opcode => depth (script.take position) < opcode.needs

/-- The first such position. -/
structure FirstShort (script : Script) (position : Nat) : Prop where
  short : shortAt script position = true
  before : ∀ earlier < position, shortAt script earlier = false

/-- A run gets to an opcode, and this is the stack that the opcode finds. -/
structure Reaches (script : Script) (tx : Transaction) (input position : Nat) (opcode : Opcode)
    (stack : Stack) : Prop where
  opcode_at : script[position]? = some opcode
  completes : eval (script.take position) tx input = .ok ⟨true, stack⟩

/-- What is to be reported of an opcode that finds too little, by the script and the count. -/
def shortReport (script : Script) (input position : Nat) (opcode : Opcode) : String :=
  "stack underflow at opcode " ++ Nat.repr position ++ " (" ++ opcode.name ++ ") of input "
    ++ Nat.repr input ++ ": needs " ++ Nat.repr opcode.needs ++ " item(s), found "
    ++ toString (depth (script.take position))

theorem depth_cons (opcode : Opcode) (rest : Script) :
    depth (opcode :: rest) = opcode.netEffect + depth rest :=
  List.sum_cons

section Run
variable {script : Script} {tx : Transaction} {input position : Nat} {opcode : Opcode}
  {stack final : Stack}

/-- A run that completes leaves what the count says. -/
theorem length_of_runFrom (h : runFrom tx input position stack script = .ok ⟨true, final⟩) :
    (final.length : Int) = stack.length + depth script := by
  induction script generalizing position stack with
  | nil =>
    cases h
    exact (Int.add_zero _).symm
  | cons opcode rest ih =>
    rw [runFrom] at h
    cases hs : opcode.step tx stack with
    | underflow => simp [hs] at h
    | halt left => simp [hs] at h
    | next next =>
      simp only [hs] at h
      rw [ih h, Opcode.length_of_step hs, depth_cons, Int.add_assoc]

theorem length_of_eval (h : eval script tx input = .ok ⟨true, final⟩) :
    (final.length : Int) = depth script := by
  have hl := length_of_runFrom h
  rwa [List.length_nil, Int.natCast_zero, Int.zero_add] at hl

theorem shortAt_of_reaches (h : Reaches script tx input position opcode stack) :
    shortAt script position = decide (stack.length < opcode.needs) := by
  rw [shortAt, h.opcode_at, Option.any_some, ← length_of_eval h.completes]
  exact decide_eq_decide.mpr Int.ofNat_lt

/-- An opcode that a completed run has passed found what it needs. -/
theorem shortAt_eq_false_of_take {count : Nat}
    (h : eval (script.take count) tx input = .ok ⟨true, final⟩) (hp : position < count) :
    shortAt script position = false := by
  cases ho : script[position]? with
  | none => rw [shortAt, ho, Option.any_none]
  | some opcode =>
    -- What completed is the part before the opcode, then the opcode, then more.
    obtain ⟨more, rfl⟩ := Nat.exists_eq_add_of_le (Nat.succ_le_of_lt hp)
    rw [eval, List.take_add, List.take_add_one, ho, Option.toList_some] at h
    obtain ⟨middle, hm, _⟩ := runFrom_append_completes_iff.mp h
    obtain ⟨stack, hs, hlast⟩ := runFrom_append_completes_iff.mp hm
    have hreach : Reaches script tx input position opcode stack := ⟨ho, hs⟩
    have hstep : opcode.step tx stack ≠ .underflow := by
      intro hu
      simp [runFrom, hu] at hlast
    rw [shortAt_of_reaches hreach, decide_eq_false_iff_not, ← Opcode.step_eq_underflow_iff tx]
    exact hstep

/-- A run that completes has been everywhere. -/
theorem shortAt_eq_false_of_eval (h : eval script tx input = .ok ⟨true, final⟩)
    (position : Nat) : shortAt script position = false := by
  cases Nat.lt_or_ge position script.length with
  | inl hlt =>
    rw [← List.take_length (l := script)] at h
    exact shortAt_eq_false_of_take h hlt
  | inr hge => rw [shortAt, List.getElem?_eq_none hge, Option.any_none]

theorem firstShort_of_reaches (h : Reaches script tx input position opcode stack)
    (few : stack.length < opcode.needs) : FirstShort script position :=
  ⟨(shortAt_of_reaches h).trans (decide_eq_true few),
    fun _ hl => shortAt_eq_false_of_take h.completes hl⟩

/-- The fault of an opcode that a run gets to carries its name and what it needs. -/
theorem message_of_reaches (h : Reaches script tx input position opcode stack) :
    Fault.message ⟨input, position, opcode, stack.length⟩
      = shortReport script input position opcode := by
  have hc : toString (depth (script.take position)) = Nat.repr stack.length := by
    rw [← length_of_eval h.completes]
    rfl
  -- Not by their equations: to state one for a text, its literals would be taken apart.
  delta Fault.message shortReport
  simp only [hc, decimalText_eq_repr]

/-- A run gets to no opcode behind the first that finds too little. -/
theorem FirstShort.lt_of_reaches {other : Nat} (hp : FirstShort script position)
    (h : Reaches script tx input other opcode stack) (enough : opcode.needs ≤ stack.length) :
    other < position := by
  have hn : shortAt script other = false :=
    (shortAt_of_reaches h).trans (decide_eq_false (Nat.not_lt.mpr enough))
  have hne : other ≠ position := by
    intro he
    rw [he, hp.short] at hn
    cases hn
  have hle : other ≤ position := by
    apply Nat.le_of_not_lt
    intro hlt
    have hs := shortAt_eq_false_of_take h.completes hlt
    rw [hp.short] at hs
    cases hs
  exact Nat.lt_of_le_of_ne hle hne

theorem Reaches.append (h : Reaches script tx input position opcode stack) (rest : Script) :
    Reaches (script ++ rest) tx input position opcode stack := by
  have hl : position < script.length := (List.getElem?_eq_some_iff.mp h.opcode_at).1
  refine ⟨?_, ?_⟩
  · rw [List.getElem?_append_left hl]
    exact h.opcode_at
  · rw [List.take_append_of_le_length (Nat.le_of_lt hl)]
    exact h.completes

theorem reaches_length (h : eval script tx input = .ok ⟨true, stack⟩) (opcode : Opcode) :
    Reaches (script ++ [opcode]) tx input script.length opcode stack := by
  refine ⟨List.getElem?_concat_length, ?_⟩
  rw [List.take_left]
  exact h

end Run

/-- How a run can end: it completes, or it gets to a `verify` that finds zero, or it gets to an
opcode that finds too little. -/
inductive Ending (script : Script) (tx : Transaction) (input : Nat) : Except Fault Outcome → Prop
  | complete (final : Stack) : Ending script tx input (.ok ⟨true, final⟩)
  | halt {position : Nat} {zero : Bytes} {left : Stack}
    (reaches : Reaches script tx input position .verify (zero :: left))
    (is_zero : isZero zero = true) : Ending script tx input (.ok ⟨false, left⟩)
  | fault {position : Nat} {opcode : Opcode} {stack : Stack}
    (reaches : Reaches script tx input position opcode stack)
    (few : stack.length < opcode.needs) :
    Ending script tx input (.error ⟨input, position, opcode, stack.length⟩)

theorem ending_eval (script : Script) (tx : Transaction) (input : Nat) :
    Ending script tx input (eval script tx input) := by
  -- From the last opcode backwards, so that every part of the run starts on the empty stack.
  induction script using List.reverseRecOn with
  | nil => exact .complete []
  | append_singleton front opcode ih =>
    have ha := runFrom_append tx input 0 [] front [opcode]
    rw [← eval, ← eval, Nat.zero_add] at ha
    rw [ha]
    generalize hr : eval front tx input = result at ih
    cases ih with
    | halt reaches is_zero => exact .halt (reaches.append [opcode]) is_zero
    | fault reaches few => exact .fault (reaches.append [opcode]) few
    | complete stack =>
      have hreach := reaches_length hr opcode
      simp only [Except.bind, if_true, runFrom]
      cases hs : opcode.step tx stack with
      | underflow => exact .fault hreach ((Opcode.step_eq_underflow_iff tx opcode stack).mp hs)
      | next next => exact .complete next
      | halt left =>
        obtain ⟨rfl, zero, hz, rfl⟩ := Opcode.step_eq_halt_iff.mp hs
        exact .halt hreach hz

section Literals
variable {a b : Script}

/-- The count does not ask what is pushed. -/
theorem depth_eq_of_tags (h : a.map Opcode.tag = b.map Opcode.tag) : depth a = depth b := by
  induction a generalizing b with
  | nil => rw [List.map_eq_nil_iff.mp h.symm]
  | cons x rest ih =>
    cases b with
    | nil => cases h
    | cons y tail =>
      obtain ⟨hx, hr⟩ := List.cons_eq_cons.mp h
      rw [depth_cons, depth_cons, Opcode.netEffect_eq_of_tag_eq hx, ih hr]

theorem shortAt_eq_of_tags (h : a.map Opcode.tag = b.map Opcode.tag) (position : Nat) :
    shortAt a position = shortAt b position := by
  have hd : depth (a.take position) = depth (b.take position) := by
    apply depth_eq_of_tags
    rw [List.map_take, List.map_take, h]
  have ho : a[position]?.map Opcode.tag = b[position]?.map Opcode.tag := by
    rw [← List.getElem?_map, ← List.getElem?_map, h]
  rw [shortAt, shortAt, hd]
  cases ha : a[position]? with
  | none =>
    rw [ha, Option.map_none] at ho
    rw [Option.map_eq_none_iff.mp ho.symm]
  | some x =>
    rw [ha, Option.map_some] at ho
    obtain ⟨y, hb, hy⟩ := Option.map_eq_some_iff.mp ho.symm
    rw [hb, Option.any_some, Option.any_some, Opcode.needs_eq_of_tag_eq hy]

theorem FirstShort.of_tags {position : Nat} (hp : FirstShort a position)
    (h : a.map Opcode.tag = b.map Opcode.tag) : FirstShort b position where
  short := (shortAt_eq_of_tags h position).symm.trans hp.short
  before earlier hl := (shortAt_eq_of_tags h earlier).symm.trans (hp.before earlier hl)

end Literals

/-- A script is at fault only where the count first comes out short, and the fault reports that
place, the opcode there with its name and its requirement, and the count. If there is such a place, the script is at fault or a
`verify` before it finds zero. If there is none, the script is never at fault, whatever it pushes
and whatever it is run for; and where it completes, it leaves as many items as the count says. -/
theorem faults_decided_by_depth (script : Script) (tx : Transaction) (input : Nat) :
    (∀ fault, eval script tx input = .error fault →
      FirstShort script fault.position ∧ script[fault.position]? = some fault.opcode
        ∧ (fault.available : Int) = depth (script.take fault.position) ∧ fault.input = input
        ∧ fault.message = shortReport script input fault.position fault.opcode)
      ∧ (∀ position, FirstShort script position →
        ∀ outcome, eval script tx input = .ok outcome → outcome.valid = false
          ∧ ∃ earlier < position, ∃ zero, isZero zero = true
            ∧ Reaches script tx input earlier .verify (zero :: outcome.stack))
      ∧ ((∀ position, ¬FirstShort script position) →
        ∀ other : Script, other.map Opcode.tag = script.map Opcode.tag →
          ∀ (u : Transaction) (j : Nat), ∃ outcome, eval other u j = .ok outcome
            ∧ (outcome.valid = true → (outcome.stack.length : Int) = depth script)) := by
  refine ⟨?_, ?_, ?_⟩
  · intro fault h
    have he := ending_eval script tx input
    rw [h] at he
    cases he with
    | fault reaches few =>
      exact ⟨firstShort_of_reaches reaches few, reaches.opcode_at,
        length_of_eval reaches.completes, rfl, message_of_reaches reaches⟩
  · intro position hp outcome h
    have he := ending_eval script tx input
    rw [h] at he
    cases he with
    | complete final =>
      have hn := shortAt_eq_false_of_eval h position
      rw [hp.short] at hn
      cases hn
    | halt reaches is_zero =>
      have hlt := hp.lt_of_reaches reaches (Nat.succ_le_of_lt (Nat.zero_lt_succ _))
      exact ⟨rfl, _, hlt, _, is_zero, reaches⟩
  · intro hn other ht u j
    have he := ending_eval other u j
    generalize hr : eval other u j = result at he
    cases he with
    | complete final =>
      refine ⟨_, rfl, fun _ => ?_⟩
      rw [length_of_eval hr, depth_eq_of_tags ht]
    | halt reaches is_zero => exact ⟨_, rfl, fun hv => nomatch hv⟩
    | fault reaches few => exact absurd ((firstShort_of_reaches reaches few).of_tags ht) (hn _)

/-- Two items are needed at the end and one is there, unless the `verify` finds zero. -/
def stumbling (first : Bytes) : Script :=
  [.push first, .dup, .verify, .checkSig]

/-- One of three items. -/
def choosing (condition zero other : Bytes) : Script :=
  [.push other, .push zero, .push condition, .select, .sha256]

theorem stumbling_choosing_ends :
    (FirstShort (stumbling [1]) 3
        ∧ eval (stumbling [1]) (.coinbase []) 4 = .error ⟨4, 3, .checkSig, 1⟩
        ∧ Fault.message ⟨4, 3, .checkSig, 1⟩
          = "stack underflow at opcode 3 (checksig) of input 4: needs 2 item(s), found 1")
      ∧ (∃ earlier < 3, ∃ zero, isZero zero = true
        ∧ Reaches (stumbling [0]) (.coinbase []) 4 earlier .verify [zero, [0]])
      ∧ ∃ outcome, eval (choosing [0, 0] [5] []) (.coinbase []) 4 = .ok outcome
        ∧ (outcome.valid = true → outcome.stack.length = 1) := by
  have hfault : eval (stumbling [1]) (.coinbase []) 4 = .error ⟨4, 3, .checkSig, 1⟩ := by
    decide +kernel
  have hhalt : eval (stumbling [0]) (.coinbase []) 4 = .ok ⟨false, [[0]]⟩ := by decide +kernel
  have hshort : FirstShort (stumbling [0]) 3 := ⟨by decide, by decide⟩
  have hnone : ∀ position, ¬FirstShort (choosing [] [] []) position := by
    intro position hp
    match position with
    | 0 | 1 | 2 | 3 | 4 => exact absurd hp.short (by decide)
    | _ + 5 => cases hp.short
  obtain ⟨outcome, ho, hl⟩ := (faults_decided_by_depth (choosing [] [] []) (.coinbase []) 0).2.2
    hnone (choosing [0, 0] [5] []) rfl (.coinbase []) 4
  obtain ⟨hp, _, _, _, hm⟩ := (faults_decided_by_depth _ _ _).1 _ hfault
  refine ⟨⟨hp, hfault, hm.trans (by decide)⟩, ?_, outcome, ho, ?_⟩
  · exact ((faults_decided_by_depth _ _ _).2.1 3 hshort _ hhalt).2
  · intro hv
    have hd : depth (choosing [] [] []) = 1 := by decide
    exact Int.ofNat_inj.mp ((hl hv).trans hd)

end Script
end CoinLedger
