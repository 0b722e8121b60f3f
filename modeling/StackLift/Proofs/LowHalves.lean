import Mathlib.Data.Nat.ModEq
import StackLift.InstructionSet.Reference
import StackLift.Proofs.Mirroring
import StackLift.Proofs.Targets

namespace StackLift

theorem lowDword_eq_iff_modEq {a b : UInt64} :
    lowDword a = lowDword b ↔ a.toNat ≡ b.toNat [MOD 2 ^ 32] := by
  rw [← UInt64.toNat_inj, toNat_lowDword, toNat_lowDword]
  rfl

inductive Agree {ε α β : Type} (R : α → β → Prop) : Except ε α → Except ε β → Prop
  | error (fault : ε) : Agree R (.error fault) (.error fault)
  | ok {a : α} {b : β} : R a b → Agree R (.ok a) (.ok b)

theorem Agree.bind {ε α β γ δ : Type} {R : α → β → Prop} {S : γ → δ → Prop} {x : Except ε α}
    {y : Except ε β} {f : α → Except ε γ} {g : β → Except ε δ} (h : Agree R x y)
    (hfg : ∀ a b, R a b → Agree S (f a) (g b)) : Agree S (x >>= f) (y >>= g) := by
  cases h with
  | error fault => exact .error fault
  | ok hab => exact hfg _ _ hab

namespace Machine

/-- In the same places, in registers and on the stack, the machines hold related words. -/
structure Related (R : UInt64 → UInt64 → Prop) (m n : Machine) : Prop where
  registers : ∀ r, R (m.registers.get r) (n.registers.get r)
  stack : List.Forall₂ R m.stack n.stack

variable {R : UInt64 → UInt64 → Prop} {m n : Machine} {a b : UInt64}

theorem Related.push (h : Related R m n) (hab : R a b) : Related R (m.push a) (n.push b) :=
  ⟨h.registers, .cons hab h.stack⟩

theorem Related.setRegister (h : Related R m n) (r : Register) (hab : R a b) :
    Related R (m.setRegister r a) (n.setRegister r b) := by
  refine ⟨fun other => ?_, h.stack⟩
  simp only [Machine.setRegister, RegisterFile.get_set]
  split
  · exact hab
  · exact h.registers other

section

variable (hR : Congruent R)
include hR

theorem Related.perform (h : Related R m n) (offset : UInt32) (action : Action) :
    (m.perform offset action).1 = (n.perform offset action).1 ∧
      Related R (m.perform offset action).2 (n.perform offset action).2 := by
  obtain ⟨file, stack⟩ := m
  obtain ⟨file', stack'⟩ := n
  have hstack := h.stack
  cases action with
  | idle => exact ⟨rfl, h⟩
  | push word => exact ⟨rfl, h.push (hR.refl word)⟩
  | pushRegister r => exact ⟨rfl, h.push (h.registers r)⟩
  | pushLowRegister r => exact ⟨rfl, h.push (hR.low (h.registers r))⟩
  | popRegister r =>
    cases hstack with
    | nil => exact ⟨rfl, h⟩
    | @cons a b rest rest' hword hrest =>
      have hbehind : Related R ⟨file, rest⟩ ⟨file', rest'⟩ := ⟨h.registers, hrest⟩
      exact ⟨rfl, hbehind.setRegister r hword⟩
  | arithmetic operation =>
    cases hstack with
    | nil => exact ⟨rfl, h.registers, .nil⟩
    | cons hb hrest =>
      cases hrest with
      | nil => exact ⟨rfl, h.registers, .nil⟩
      | cons ha hrest => exact ⟨rfl, h.registers, .cons (hR.apply operation ha hb) hrest⟩

theorem Related.execute (h : Related R m n) (i : Instruction) :
    (m.execute i).1 = (n.execute i).1 ∧ Related R (m.execute i).2 (n.execute i).2 := by
  have hmoved := h.setRegister .ip (hR.refl i.next.toUInt64)
  rw [Machine.execute, Machine.execute]
  split
  · exact hmoved.perform hR i.offset _
  · exact ⟨rfl, hmoved⟩

theorem Related.run (h : Related R m n) (instructions : List Instruction) :
    Agree (Related R) (m.run instructions) (n.run instructions) := by
  induction instructions generalizing m n with
  | nil => exact .ok h
  | cons i rest ih =>
    obtain ⟨houtcome, hafter⟩ := h.execute hR i
    rw [Machine.run, Machine.run]
    cases hm : m.execute i with
    | mk outcome after =>
      cases hn : n.execute i with
      | mk outcome' after' =>
        rw [hm, hn] at houtcome hafter
        cases houtcome
        cases outcome with
        | error fault => exact .error fault
        | ok => exact ih hafter

/-- A fold starts on an empty stack, so that it looks at the registers alone. -/
theorem agree_fold (h : ∀ r, R (m.registers.get r) (n.registers.get r))
    (instructions : List Instruction) : Agree R (m.fold instructions) (n.fold instructions) := by
  have hempty : Related R { m with stack := [] } { n with stack := [] } := ⟨h, .nil⟩
  refine (hempty.run hR instructions).bind ?_
  rintro ⟨file, stack⟩ ⟨file', stack'⟩ hfinal
  have hstack := hfinal.stack
  cases hstack with
  | nil => exact .error FoldFault.emptyStack
  | cons hword _ => exact .ok hword

end

end Machine

namespace Discovery

variable {m n : Machine}

theorem target_of_agree {d : Discovery} {graph : Graph} {node : Node} {target : UInt32}
    (hfold : ∀ instructions, Agree (fun a b => lowDword a = lowDword b) (m.fold instructions)
      (n.fold instructions)) (h : { d with machine := m }.target graph node = .ok target) :
    { d with machine := n }.target graph node = .ok target ∨
      ∃ word : UInt64, word.toUInt32 = target ∧ { d with machine := n }.target graph node =
        .error (.unresolvedTarget node.offset (.outOfRange word)) := by
  obtain ⟨input, hinput, hword⟩ := target_cases h
  have hagree := hfold (graph.producers input)
  rw [show m.fold (graph.producers input) = .ok target.toUInt64 from hword] at hagree
  cases hother : n.fold (graph.producers input) with
  | error fault =>
    rw [hother] at hagree
    cases hagree
  | ok word =>
    have hlow : target = word.toUInt32 := by
      rw [hother] at hagree
      cases hagree with
      | ok hlow => rwa [lowDword_eq_iff, UInt32.toUInt32_toUInt64] at hlow
    have hfolds : { d with machine := n }.fold graph input = .ok word := hother
    rw [Discovery.target, hinput]
    simp only [hfolds]
    split
    · exact .inl (congrArg Except.ok hlow.symm)
    · exact .inr ⟨word, hlow.symm, rfl⟩

end Discovery

/-- `PUSHR_QWORD R0` at 0. -/
def Node.passingOn : Node :=
  .fresh ⟨0, InstructionSet.Reference.pushRegister Code.pushRegisterQword "PUSHR_QWORD" .qword,
    .register .r0, 2⟩ (.start 0 0)

/-- `JMP` at 2, to what was pushed at 0. -/
def Node.jumping : Node :=
  { fresh ⟨2, InstructionSet.Reference.transfer Code.jump "JMP" .jump .one, .none, 1⟩
      (.start 2 0) with inputs := [.producedBy 0 .qword] }

namespace Machine

/-- Folds from registers that agree modulo `2 ^ 32` fail alike, or give words that agree so. Hence
the high halves can put a target out of range, but never make another target of it. -/
theorem folds_agree {m n : Machine}
    (h : ∀ r, (m.registers.get r).toNat ≡ (n.registers.get r).toNat [MOD 2 ^ 32]) :
    (∀ instructions, Agree (fun a b : UInt64 => a.toNat ≡ b.toNat [MOD 2 ^ 32])
      (m.fold instructions) (n.fold instructions)) ∧
    ∀ (d : Discovery) (graph : Graph) (node : Node) (target : UInt32),
      { d with machine := m }.target graph node = .ok target →
      { d with machine := n }.target graph node = .ok target ∨
        ∃ word : UInt64, word.toUInt32 = target ∧ { d with machine := n }.target graph node =
          .error (.unresolvedTarget node.offset (.outOfRange word)) := by
  have hlow : ∀ r, lowDword (m.registers.get r) = lowDword (n.registers.get r) :=
    fun r => lowDword_eq_iff_modEq.2 (h r)
  have hfold := agree_fold congruent_lowDword hlow
  refine ⟨fun instructions => ?_, fun d graph node target => Discovery.target_of_agree hfold⟩
  simpa only [lowDword_eq_iff_modEq] using hfold instructions

/-- The high half of R0 puts the target 12 of the jump out of range. -/
theorem jumping_folds_agree :
    (∀ r, ((ofPresets [(.r0, 12)]).registers.get r).toNat ≡
      ((ofPresets [(.r0, 0x10000000C)]).registers.get r).toNat [MOD 2 ^ 32]) ∧
    Agree (fun a b : UInt64 => a.toNat ≡ b.toNat [MOD 2 ^ 32])
      ((ofPresets [(.r0, 12)]).fold [Node.passingOn.toInstruction])
      ((ofPresets [(.r0, 0x10000000C)]).fold [Node.passingOn.toInstruction]) ∧
    (⟨#[], .reference, ofPresets [(.r0, 12)]⟩ : Discovery).target
      (.ofList [.passingOn, .jumping]) .jumping = .ok 12 ∧
    ∃ word : UInt64, word.toUInt32 = 12 ∧
      (⟨#[], .reference, ofPresets [(.r0, 0x10000000C)]⟩ : Discovery).target
        (.ofList [.passingOn, .jumping]) .jumping =
          .error (.unresolvedTarget 2 (.outOfRange word)) := by
  have hregisters : ∀ r, ((ofPresets [(.r0, 12)]).registers.get r).toNat ≡
      ((ofPresets [(.r0, 0x10000000C)]).registers.get r).toNat [MOD 2 ^ 32] := by
    intro r
    cases r <;> decide
  have hnarrow : (⟨#[], .reference, ofPresets [(.r0, 12)]⟩ : Discovery).target
      (.ofList [.passingOn, .jumping]) .jumping = .ok 12 := by cbv
  have hwide : (⟨#[], .reference, ofPresets [(.r0, 0x10000000C)]⟩ : Discovery).target
      (.ofList [.passingOn, .jumping]) .jumping ≠ .ok 12 := by
    cbv
    simp
  obtain ⟨hfold, htarget⟩ := folds_agree hregisters
  refine ⟨hregisters, hfold _, hnarrow, ?_⟩
  exact (htarget ⟨#[], .reference, ofPresets []⟩ _ _ _ hnarrow).resolve_left hwide

end Machine

end StackLift
