import StackLift.InstructionSet.Reference
import StackLift.Proofs.StraightLine

namespace StackLift

namespace Action

def pops : Action → Pops
  | popRegister _ => .one
  | arithmetic _ => .two
  | _ => .none

def pushes : Action → Pushes
  | idle | popRegister _ => .none
  | _ => .one

def register? : Action → Option Register
  | pushRegister r | pushLowRegister r | popRegister r => some r
  | _ => none

end Action

/-- The machine performs the action for the instruction, which is declared to pop, push and name
what the action does. -/
structure Instruction.Performs (i : Instruction) (action : Action) : Prop extends i.Falls where
  runs : Action.of? i.opcode.code i.operand = some action
  popping : i.opcode.pops = action.pops
  pushing : i.opcode.pushes = action.pushes
  naming : i.operand.register? = action.register?

theorem Instruction.poppedRegister?_eq (i : Instruction) :
    i.poppedRegister? = if i.opcode.pops = .one then i.operand.register? else none := by
  rw [poppedRegister?]
  cases i.opcode.pops <;> cases i.operand <;> rfl

theorem Frame.pushed_eq (f : Frame) (i : Instruction) (kind : ValueKind) :
    f.pushed i kind = match i.operand.register? with
      | some r =>
        if (f.registers.get r).isEntry then .producedBy i.offset kind else f.registers.get r
      | none => .producedBy i.offset kind := by
  rw [pushed]
  cases i.operand <;> rfl

theorem Frame.effect_kept (f : Frame) (i : Instruction) (s : Option Signature) :
    f.effect i.kept s = f.effect i s := by
  simp only [effect, bindPopped, Instruction.poppedRegister?_eq, pushed_eq, Instruction.kept,
    Operand.register?_kept]

theorem Instruction.Performs.poppedRegister?_eq {i : Instruction} {action : Action}
    (h : i.Performs action) :
    i.poppedRegister? = if action.pops = .one then action.register? else none := by
  rw [Instruction.poppedRegister?_eq, h.popping, h.naming]

theorem InstructionSet.performs_of_reference {i : Instruction} {word : UInt64} {action : Action}
    (hopcode : reference.opcode? i.opcode.code = some i.opcode)
    (hword : i.operand.field? i.opcode.form = some word)
    (haction : Action.of? i.opcode.code i.operand = some action) : i.Performs action := by
  obtain ⟨offset, ⟨code, mnemonic, flow, pops, pushes, form, kind⟩, operand, size⟩ := i
  have hruns := haction
  simp only at hopcode hword haction
  rw [Action.of?.eq_def] at haction
  split at haction
  all_goals cases haction
  all_goals cases hopcode
  -- Where the operand is not told by the action, the opcode takes none.
  all_goals try obtain rfl := Operand.eq_none_of_field? hword
  all_goals exact ⟨⟨⟨rfl, rfl⟩, rfl⟩, hruns, rfl, rfl, rfl⟩

namespace Machine

variable {m after start : Machine} {executed : List Instruction} {i : Instruction}
  {action : Action} {offset : UInt32} {word : UInt64} {v : Provenance}

theorem execute_eq_perform (h : i.Performs action) (m : Machine) :
    m.execute i = (m.setRegister .ip i.next.toUInt64).perform i.offset action := by
  simp only [execute, h.runs]

theorem run_append (m : Machine) (before later : List Instruction) :
    m.run (before ++ later) = m.run before >>= fun m => m.run later := by
  induction before generalizing m with
  | nil => rfl
  | cons i rest ih =>
    rw [List.cons_append, run, run]
    split
    · exact ih _
    · rfl

theorem run_cons (h : m.execute i = (.ok (), after)) (rest : List Instruction) :
    m.run (i :: rest) = after.run rest := by
  rw [run, h]

theorem run_cons_of_error {fault : FoldFault} (h : (m.execute i).1 = .error fault)
    (rest : List Instruction) : m.run (i :: rest) = .error fault := by
  rw [run]
  split
  · next hexecute =>
    rw [hexecute] at h
    cases h
  · next hexecute =>
    rw [hexecute] at h
    cases h
    rfl

theorem run_concat (hrun : start.run executed = .ok m) (hexecute : m.execute i = (.ok (), after)) :
    start.run (executed ++ [i]) = .ok after := by
  rw [run_append, hrun]
  exact run_cons hexecute []

/-- The instruction at the offset was among those executed, and left the word on top when it was. -/
def Pushed (start : Machine) (executed : List Instruction) (offset : UInt32) (word : UInt64) :
    Prop :=
  ∃ earlier i later after, executed = earlier ++ i :: later ∧ i.offset = offset ∧
    i.opcode.pushes = .one ∧ start.run (earlier ++ [i]) = .ok after ∧
    after.stack.head? = some word

/-- The value has a single source, and the word agrees with what that pushed in its low half. -/
def Holds (start : Machine) (executed : List Instruction) (v : Provenance) (word : UInt64) : Prop :=
  ∃ source pushed, v.sources.toList = [source] ∧ start.Pushed executed source pushed ∧
    lowDword word = lowDword pushed

theorem Pushed.append (h : start.Pushed executed offset word) (more : List Instruction) :
    start.Pushed (executed ++ more) offset word := by
  obtain ⟨earlier, i, later, after, rfl, hrest⟩ := h
  exact ⟨earlier, i, later ++ more, after, by simp, hrest⟩

theorem Holds.append (h : start.Holds executed v word) (more : List Instruction) :
    start.Holds (executed ++ more) v word := by
  obtain ⟨source, pushed, hsource, hpushed, hword⟩ := h
  exact ⟨source, pushed, hsource, hpushed.append more, hword⟩

theorem Holds.of_lowDword_eq {other : UInt64} (h : start.Holds executed v word)
    (hother : lowDword other = lowDword word) : start.Holds executed v other := by
  obtain ⟨source, pushed, hsource, hpushed, hword⟩ := h
  exact ⟨source, pushed, hsource, hpushed, hother.trans hword⟩

theorem holds_producedBy (hi : i.opcode.pushes = .one)
    (hrun : start.run (executed ++ [i]) = .ok after) (htop : after.stack.head? = some word)
    (kind : ValueKind) : start.Holds (executed ++ [i]) (.producedBy i.offset kind) word :=
  ⟨i.offset, word, rfl, ⟨executed, i, [], after, rfl, rfl, hi, hrun, htop⟩, rfl⟩

end Machine

/-- The frame says where the words of the machine were pushed, cell by cell and register by register
but for the instruction pointer; a register without a source is as it was at the start. -/
structure Frame.Abstracts (f : Frame) (start : Machine) (executed : List Instruction)
    (m : Machine) : Prop where
  stack : List.Forall₂ (start.Holds executed) f.stack m.stack
  registers : ∀ r, r ≠ .ip → start.Holds executed (f.registers.get r) (m.registers.get r) ∨
    (f.registers.get r).isEntry = true ∧ m.registers.get r = start.registers.get r

namespace Frame

variable {f : Frame} {start m : Machine} {executed : List Instruction} {i : Instruction}
  {action : Action}

theorem Abstracts.depth_eq (h : f.Abstracts start executed m) : f.depth = m.stack.length :=
  h.stack.length_eq

theorem abstracts_start (ip key : UInt32) (registers : RegisterFile UInt64) :
    (Frame.start ip key).Abstracts ⟨registers, []⟩ [] ⟨registers, []⟩ := by
  refine ⟨.nil, fun r _ => .inr ⟨?_, rfl⟩⟩
  rw [Frame.start, RegisterFile.get_fill]
  rfl

theorem Abstracts.append (h : f.Abstracts start executed m) (more : List Instruction) :
    f.Abstracts start (executed ++ more) m := by
  refine ⟨h.stack.imp fun _ _ hholds => hholds.append more, ?_⟩
  intro r hr
  exact (h.registers r hr).imp_left fun hholds => hholds.append more

theorem Abstracts.moveTo (h : f.Abstracts start executed m) (ip : UInt32) :
    (f.moveTo ip).Abstracts start executed m :=
  ⟨h.stack, h.registers⟩

theorem Abstracts.behindPops (h : f.Abstracts start executed m) (hi : i.poppedRegister? = none)
    (count : Nat) (ip : UInt64) :
    (f.behindPops i count).Abstracts start executed
      { m.setRegister .ip ip with stack := m.stack.drop count } := by
  constructor
  · rw [stack_behindPops]
    exact List.forall₂_drop count h.stack
  · intro r hr
    rw [registers_behindPops f hi, RegisterFile.get_set_of_ne _ _ hr, Machine.setRegister,
      RegisterFile.get_set_of_ne _ _ hr]
    exact h.registers r hr

theorem Abstracts.push {v : Provenance} {word : UInt64} (h : f.Abstracts start executed m)
    (hv : start.Holds executed v word) : (f.push v).Abstracts start executed (m.push word) :=
  ⟨.cons hv h.stack, h.registers⟩

/-- An instruction underflows on both sides, or both get behind it in step. -/
inductive Agrees (f : Frame) (start : Machine) (executed : List Instruction) (m : Machine)
    (i : Instruction) : Prop
  | underflows : f.effect i none = .error (.stackUnderflow i.offset) →
      (m.execute i).1 = .error (.stackUnderflow i.offset) → Agrees f start executed m i
  | advances {e : Effect} {after : Machine} : f.effect i none = .ok e →
      m.execute i = (.ok (), after) → e.frame.Abstracts start (executed ++ [i]) after →
      Agrees f start executed m i

theorem Abstracts.agrees_of_push (h : f.Abstracts start executed m)
    (hrun : start.run executed = .ok m) (hi : i.Performs action) (hpushes : action.pushes = .one)
    (count : Nat) (hcount : i.opcode.pops.count? none = some count) (hle : count ≤ f.depth)
    {word : UInt64}
    (hexecute : m.execute i = (.ok (),
      { m.setRegister .ip i.next.toUInt64 with stack := word :: m.stack.drop count }))
    (hword : ∀ r, action.register? = some r → r ≠ .ip →
      lowDword word = lowDword (m.registers.get r)) : f.Agrees start executed m i := by
  have hone : i.opcode.pushes = .one := hi.pushing.trans hpushes
  have hregister : i.poppedRegister? = none := by
    rw [hi.poppedRegister?_eq, if_neg]
    cases action <;> simp [Action.pops, Action.pushes] at hpushes ⊢
  have hkind : i.opcode.pushes.kind? i.opcode.kind none = some (some i.opcode.kind) := by
    rw [hone]
    rfl
  have hafter := Machine.run_concat hrun hexecute
  have hholds : start.Holds (executed ++ [i])
      ((f.behindPops i count).pushed i i.opcode.kind) word := by
    rcases pushed_cases f hregister count i.opcode.kind with
      ⟨⟨kind, hown⟩, _⟩ | ⟨r, hr, hip, hentry, hknown⟩
    · rw [hown]
      exact Machine.holds_producedBy hone hafter rfl kind
    · rw [hknown]
      have hnames : action.register? = some r := by
        rw [← hi.naming, hr]
        rfl
      rcases h.registers r hip with hholds | ⟨hunknown, _⟩
      · exact (hholds.append [i]).of_lowDword_eq (hword r hnames hip)
      · rw [hentry] at hunknown
        cases hunknown
  have hbehind := (h.behindPops hregister count i.next.toUInt64).append [i]
  exact .advances (effect_plain hcount hkind hle) hexecute
    (hbehind.push hholds)

theorem Abstracts.agrees_of_pop {r : Register} (h : f.Abstracts start executed m)
    (hi : i.Performs (.popRegister r)) : f.Agrees start executed m i := by
  have hcount : i.opcode.pops.count? none = some 1 := by
    rw [hi.popping]
    rfl
  have hkind : i.opcode.pushes.kind? i.opcode.kind none = some none := by
    rw [hi.pushing]
    rfl
  have hexecute := Machine.execute_eq_perform hi m
  obtain ⟨ip, key, registers, stack⟩ := f
  obtain ⟨words, cells⟩ := m
  obtain ⟨hstack, hregisters⟩ := h
  cases hstack with
  | nil =>
    refine .underflows (effect_underflow hcount Nat.zero_lt_one) ?_
    rw [hexecute]
    rfl
  | @cons v word stack cells hv hstack =>
    refine .advances (effect_plain hcount hkind (Nat.le_add_left 1 _))
      hexecute (Abstracts.append ⟨?_, ?_⟩ [i])
    · rw [behindPush, stack_behindPops]
      exact hstack
    · have hpopped : i.poppedRegister? = some r := hi.poppedRegister?_eq
      intro s hs
      rw [behindPush, registers_behindPops_pop hpopped rfl]
      simp only [Machine.setRegister, RegisterFile.get_set, if_neg hs]
      split
      · exact .inl hv
      · exact hregisters s hs

theorem Abstracts.agrees_of_idle (h : f.Abstracts start executed m) (hi : i.Performs .idle) :
    f.Agrees start executed m i := by
  have hcount : i.opcode.pops.count? none = some 0 := by
    rw [hi.popping]
    rfl
  have hkind : i.opcode.pushes.kind? i.opcode.kind none = some none := by
    rw [hi.pushing]
    rfl
  exact .advances (effect_plain hcount hkind (Nat.zero_le _))
    (Machine.execute_eq_perform hi m)
    ((h.behindPops hi.poppedRegister?_eq 0 i.next.toUInt64).append [i])

/-- An instruction that the machine performs keeps frame and machine in step. -/
theorem Abstracts.agrees (h : f.Abstracts start executed m) (hrun : start.run executed = .ok m)
    (hi : i.Performs action) : f.Agrees start executed m i := by
  have hexecute := Machine.execute_eq_perform hi m
  have hcount : i.opcode.pops.count? none = action.pops.count? none := by
    rw [hi.popping]
  cases action with
  | idle => exact h.agrees_of_idle hi
  | pushRegister r =>
    refine h.agrees_of_push hrun hi rfl 0 hcount (Nat.zero_le _) hexecute ?_
    rintro _ ⟨⟩ hr
    rw [Machine.setRegister, RegisterFile.get_set_of_ne _ _ hr]
  | pushLowRegister r =>
    refine h.agrees_of_push hrun hi rfl 0 hcount (Nat.zero_le _) hexecute ?_
    rintro _ ⟨⟩ hr
    rw [Machine.setRegister, RegisterFile.get_set_of_ne _ _ hr, lowDword_lowDword]
  | push word =>
    refine h.agrees_of_push hrun hi rfl 0 hcount (Nat.zero_le _) hexecute ?_
    rintro _ ⟨⟩
  | popRegister r => exact h.agrees_of_pop hi
  | arithmetic operation =>
    have hdepth := h.depth_eq
    obtain ⟨words, cells⟩ := m
    rcases cells with _ | ⟨b, _ | ⟨a, rest⟩⟩
    · exact .underflows (effect_underflow hcount (by simp [hdepth])) (congrArg Prod.fst hexecute)
    · exact .underflows (effect_underflow hcount (by simp [hdepth])) (congrArg Prod.fst hexecute)
    · have hle : 2 ≤ f.depth := hdepth ▸ Nat.le_add_left 2 _
      refine h.agrees_of_push hrun hi rfl 2 hcount hle hexecute ?_
      rintro _ ⟨⟩

/-- Straight code underflows at the same offset on both sides, or its instructions are recorded in
order with frames that abstract the machine there, if the last of them has an effect wherever the
machine gets to it. -/
theorem Abstracts.agree_along_of_effect {last : Instruction} {instructions : List Instruction}
    (h : f.Abstracts start executed m) (hrun : start.run executed = .ok m)
    (hperforms : ∀ i ∈ instructions, ∃ action, i.Performs action)
    (hlast : ∀ (g : Frame) (final : Machine), m.run instructions = .ok final →
      g.depth = final.stack.length → ∃ e, g.effect last none = .ok e) :
    (∃ offset, f.along ((instructions ++ [last]).map Instruction.kept) =
        .error (.stackUnderflow offset) ∧ m.run instructions = .error (.stackUnderflow offset)) ∨
      ∃ nodes final, f.along ((instructions ++ [last]).map Instruction.kept) = .ok nodes ∧
        m.run instructions = .ok final ∧
        nodes.map Node.toInstruction = (instructions ++ [last]).map Instruction.kept ∧
        ∀ k node, nodes[k]? = some node → ∃ reached,
          start.run (executed ++ instructions.take k) = .ok reached ∧
          node.frame.Abstracts start (executed ++ instructions.take k) reached := by
  -- A frame answers to all that was executed before it, which grows with every instruction.
  induction instructions generalizing f executed m with
  | nil =>
    obtain ⟨e, heffect⟩ := hlast f m rfl h.depth_eq
    refine .inr ⟨[⟨last.kept, f, e.popped, .nothing⟩], m, ?_, rfl, rfl, ?_⟩
    · exact along_cons ((effect_kept f last none).trans heffect) []
    · intro k node hnode
      obtain ⟨hk, rfl⟩ := List.getElem?_eq_some_iff.1 hnode
      obtain rfl := Nat.lt_one_iff.1 hk
      rw [List.take_nil, List.append_nil]
      exact ⟨m, hrun, h⟩
  | cons i rest ih =>
    obtain ⟨action, hi⟩ := hperforms i List.mem_cons_self
    rw [List.cons_append, List.map_cons]
    cases h.agrees hrun hi with
    | underflows hframe hmachine =>
      exact .inl ⟨i.offset, along_cons_of_error ((effect_kept f i none).trans hframe) _,
        Machine.run_cons_of_error hmachine rest⟩
    | @advances e after hframe hmachine hafter =>
      rw [Machine.run_cons hmachine] at hlast
      rw [along_cons ((effect_kept f i none).trans hframe), Machine.run_cons hmachine]
      have hrest := ih (hafter.moveTo i.kept.next) (Machine.run_concat hrun hmachine)
        (fun j hj => hperforms j (List.mem_cons_of_mem _ hj)) hlast
      rcases hrest with ⟨offset, halong, hfails⟩ | ⟨nodes, final, halong, hends, hnodes, hreached⟩
      · refine .inl ⟨offset, ?_, hfails⟩
        rw [halong]
        rfl
      · refine .inr ⟨⟨i.kept, f, e.popped, .nothing⟩ :: nodes, final, ?_, hends, ?_, ?_⟩
        · rw [halong]
          rfl
        · rw [List.map_cons, hnodes]
        · intro k node hnode
          cases k with
          | zero =>
            cases hnode
            rw [List.take_zero, List.append_nil]
            exact ⟨m, hrun, h⟩
          | succ k =>
            rw [List.take_succ_cons, List.append_cons]
            exact hreached k node hnode

theorem Abstracts.agree_along {last : Instruction} {instructions : List Instruction}
    (h : f.Abstracts start executed m) (hrun : start.run executed = .ok m)
    (hperforms : ∀ i ∈ instructions, ∃ action, i.Performs action)
    (hlast : last.opcode.pops = .none ∧ last.opcode.pushes = .none) :
    (∃ offset, f.along ((instructions ++ [last]).map Instruction.kept) =
        .error (.stackUnderflow offset) ∧ m.run instructions = .error (.stackUnderflow offset)) ∨
      ∃ nodes final, f.along ((instructions ++ [last]).map Instruction.kept) = .ok nodes ∧
        m.run instructions = .ok final ∧
        nodes.map Node.toInstruction = (instructions ++ [last]).map Instruction.kept ∧
        ∀ k node, nodes[k]? = some node → ∃ reached,
          start.run (executed ++ instructions.take k) = .ok reached ∧
          node.frame.Abstracts start (executed ++ instructions.take k) reached := by
  apply h.agree_along_of_effect hrun hperforms
  intro g final _ _
  have hcount : last.opcode.pops.count? none = some 0 := by
    rw [hlast.1]
    rfl
  have hkind : last.opcode.pushes.kind? last.opcode.kind none = some none := by
    rw [hlast.2]
    rfl
  exact ⟨_, effect_plain hcount hkind (Nat.zero_le g.depth)⟩

end Frame

end StackLift
