import StackLift.Proofs.Mirroring
import StackLift.Proofs.Replaying

namespace StackLift

variable {graph : Graph} {start m after : Machine} {P : UInt32 → Prop} {bound : UInt32}
  {v : Provenance} {word : UInt64} {f : Frame} {node : Node} {action : Action} {e : Effect}

/-- The value is known from before the bound. The word agrees with what it evaluates to in the low
half, and altogether if its source is among those in question. -/
def Graph.Derives (graph : Graph) (start : Machine) (P : UInt32 → Prop) (bound : UInt32)
    (v : Provenance) (word : UInt64) : Prop :=
  ∃ given, graph.Evaluates start v given ∧ v.Within (· < bound) ∧
    lowDword word = lowDword given ∧ (v.Within P → word = given)

/-- The words of the machine, cell by cell and register by register but for the instruction pointer,
are derived from the values of the frame; a register without a source is as it was at the start. -/
structure Frame.Traces (f : Frame) (graph : Graph) (start : Machine) (P : UInt32 → Prop)
    (bound : UInt32) (m : Machine) : Prop where
  stack : List.Forall₂ (graph.Derives start P bound) f.stack m.stack
  registers : ∀ r, r ≠ .ip →
    graph.Derives start P bound (f.registers.get r) (m.registers.get r) ∨
      (f.registers.get r).isEntry = true ∧ m.registers.get r = start.registers.get r

def Graph.ClosedUnder (graph : Graph) (P : UInt32 → Prop) : Prop :=
  ∀ node, graph.get? node.offset = some node → P node.offset →
    ∀ input ∈ node.inputs, input.Within P

/-- Wherever the run pushes the low half of a register whose value has a source in question, that is
all of its word. -/
def Graph.Whole (graph : Graph) (P : UInt32 → Prop) (m : Machine)
    (instructions : List Instruction) : Prop :=
  ∀ (k : Nat) (i : Instruction) (reached : Machine) (r : Register) (node : Node),
    instructions[k]? = some i → m.run (instructions.take k) = .ok reached →
    Action.of? i.opcode.code i.operand = some (.pushLowRegister r) → r ≠ .ip →
    graph.get? i.offset = some node → (∃ a ∈ (node.frame.registers.get r).sources, P a) →
    lowDword (reached.registers.get r) = reached.registers.get r

theorem Graph.Derives.mono (h : graph.Derives start P bound v word) {later : UInt32}
    (hle : bound < later) : graph.Derives start P later v word := by
  obtain ⟨given, heval, hwithin, hword⟩ := h
  exact ⟨given, heval, hwithin.mono fun _ ha => UInt32.lt_trans ha hle, hword⟩

theorem Graph.Evaluates.isEntry_eq_false (h : graph.Evaluates start v word) :
    v.isEntry = false := by
  obtain ⟨_, _, hsource⟩ := h.exists_node
  rw [Provenance.isEntry, hsource]
  rfl

theorem Frame.traces_start (graph : Graph) (P : UInt32 → Prop) (bound ip key : UInt32)
    (registers : RegisterFile UInt64) :
    (Frame.start ip key).Traces graph ⟨registers, []⟩ P bound ⟨registers, []⟩ := by
  refine ⟨.nil, fun r _ => .inr ⟨?_, rfl⟩⟩
  rw [Frame.start, RegisterFile.get_fill]
  rfl

namespace Frame.Traces

theorem moveTo (h : f.Traces graph start P bound m) (ip : UInt32) :
    (f.moveTo ip).Traces graph start P bound m :=
  ⟨h.stack, h.registers⟩

theorem mono (h : f.Traces graph start P bound m) {later : UInt32} (hlt : bound < later) :
    f.Traces graph start P later m := by
  refine ⟨h.stack.imp fun _ _ hderives => hderives.mono hlt, ?_⟩
  intro r hr
  exact (h.registers r hr).imp_left fun hderives => hderives.mono hlt

theorem behindPops {i : Instruction} (h : f.Traces graph start P bound m)
    (hi : i.poppedRegister? = none) (count : Nat) (ip : UInt64) :
    (f.behindPops i count).Traces graph start P bound
      { m.setRegister .ip ip with stack := m.stack.drop count } := by
  constructor
  · rw [stack_behindPops]
    exact List.forall₂_drop count h.stack
  · intro r hr
    rw [registers_behindPops f hi, RegisterFile.get_set_of_ne _ _ hr, Machine.setRegister,
      RegisterFile.get_set_of_ne _ _ hr]
    exact h.registers r hr

theorem push (h : f.Traces graph start P bound m) (hv : graph.Derives start P bound v word) :
    (f.push v).Traces graph start P bound (m.push word) :=
  ⟨.cons hv h.stack, h.registers⟩

structure Meets (graph : Graph) (node : Node) (e : Effect) : Prop where
  recorded : graph.get? node.offset = some node
  effect : node.frame.effect node.toInstruction none = .ok e
  inputs : node.inputs = e.popped
  lt_next : node.offset < node.next

section

variable (h : node.frame.Traces graph start P node.offset m) (hmeets : Meets graph node e)
include h hmeets

theorem step_of_push (hi : node.Performs action) (hpushes : action.pushes = .one) {count : Nat}
    (hcount : node.opcode.pops.count? none = some count)
    (hown : (∀ r, action.register? = some r → r ≠ .ip →
        (node.frame.registers.get r).isEntry = true) →
      ∃ given, (∀ v, v.sources = .singleton node.offset → graph.Evaluates start v given) ∧
        lowDword word = lowDword given ∧ (P node.offset → word = given))
    (hpassed : ∀ r, action.register? = some r → r ≠ .ip →
      lowDword word = lowDword (m.registers.get r) ∧
        ((∃ a ∈ (node.frame.registers.get r).sources, P a) → word = m.registers.get r)) :
    e.frame.Traces graph start P node.next
      { m.setRegister .ip node.next.toUInt64 with stack := word :: m.stack.drop count } := by
  have hregister := hi.poppedRegister?_eq_none hpushes
  obtain ⟨count', kind, hcount', hkind, _, rfl⟩ := effect_cases hmeets.effect
  rw [hcount] at hcount'
  rw [hi.pushing.trans hpushes] at hkind
  cases hcount'
  cases hkind
  have hbehind := (h.mono hmeets.lt_next).behindPops hregister count node.next.toUInt64
  apply hbehind.push
  have hnames : ∀ r, node.operand = .register r → action.register? = some r := by
    intro r hr
    rw [← hi.naming, hr]
    rfl
  rcases pushed_cases node.frame hregister count node.opcode.kind with
    ⟨⟨kind, hpushed⟩, hentry⟩ | ⟨r, hr, hip, hknown, hpushed⟩
  · obtain ⟨given, heval, hlow, hword⟩ := hown fun r hr hip =>
      hentry r (Operand.eq_of_register? (hi.naming.trans hr)) hip
    rw [hpushed]
    refine ⟨given, heval _ rfl, ?_, hlow, fun hP => hword (hP _ (OffsetSet.mem_singleton.2 rfl))⟩
    intro a ha
    rw [OffsetSet.mem_singleton.1 ha]
    exact hmeets.lt_next
  · obtain ⟨hlow, hword⟩ := hpassed r (hnames r hr) hip
    obtain ⟨source, hsource⟩ := Provenance.exists_mem_of_isEntry hknown
    rw [hpushed]
    rcases (h.mono hmeets.lt_next).registers r hip with
      ⟨given, heval, hwithin, hlow', hword'⟩ | ⟨hunknown, _⟩
    · refine ⟨given, heval, hwithin, hlow.trans hlow', ?_⟩
      intro hP
      rw [hword ⟨source, hsource, hP source hsource⟩, hword' hP]
    · rw [hknown] at hunknown
      cases hunknown

theorem step_of_leaf (hi : node.Performs action) (hpushes : action.pushes = .one)
    (hpops : action.pops = .none)
    (hown : (∀ r, action.register? = some r → r ≠ .ip →
      m.registers.get r = start.registers.get r) → node.PushesWord start word)
    (hpassed : ∀ r, action.register? = some r → r ≠ .ip →
      lowDword word = lowDword (m.registers.get r) ∧
        ((∃ a ∈ (node.frame.registers.get r).sources, P a) → word = m.registers.get r)) :
    e.frame.Traces graph start P node.next
      ((m.setRegister .ip node.next.toUInt64).push word) := by
  have hcount : node.opcode.pops.count? none = some 0 := by
    rw [hi.popping, hpops]
    rfl
  apply h.step_of_push hmeets hi hpushes hcount ?_ hpassed
  intro hentry
  have hpopped : some 0 = some e.popped.length := hcount.symm.trans (count?_popped hmeets.effect)
  have hinputs : node.inputs = [] :=
    hmeets.inputs.trans (List.length_eq_zero_iff.1 (Option.some.inj hpopped).symm)
  have hsame : ∀ r, action.register? = some r → r ≠ .ip →
      m.registers.get r = start.registers.get r := by
    intro r hr hip
    rcases h.registers r hip with ⟨given, heval, _⟩ | ⟨_, hsame⟩
    · cases (hentry r hr hip).symm.trans heval.isEntry_eq_false
    · exact hsame
  exact ⟨word, fun v hv => .push hmeets.recorded hv hinputs (hown hsame), rfl, fun _ => rfl⟩

theorem step_of_pushRegister {r : Register} {g : UInt64 → UInt64} (hi : node.Performs action)
    (hpushes : action.pushes = .one) (hpops : action.pops = .none)
    (hregister : action.register? = some r)
    (hperform : ∀ m : Machine,
      m.perform node.offset action = (.ok (), m.push (g (m.registers.get r))))
    (hg : ∀ word, lowDword (g word) = lowDword word)
    (hcut : r ≠ .ip → (∃ a ∈ (node.frame.registers.get r).sources, P a) →
      g (m.registers.get r) = m.registers.get r)
    (hexecute : m.execute node.toInstruction = (.ok (), after)) :
    e.frame.Traces graph start P node.next after := by
  rw [Machine.execute_eq_perform hi, hperform] at hexecute
  cases hexecute
  apply h.step_of_leaf hmeets hi hpushes hpops
  · intro hsame other hother
    rw [Machine.execute_eq_perform hi, hperform]
    simp only [Machine.setRegister, RegisterFile.get_set]
    split
    · rfl
    · next hip => rw [hother r hip, hsame r hregister hip]
  · intro s hs hip
    cases hregister.symm.trans hs
    simp only [Machine.setRegister, RegisterFile.get_set, if_neg hip]
    exact ⟨hg _, hcut hip⟩

theorem step_of_arithmetic {operation : Arithmetic} (hclosed : graph.ClosedUnder P)
    (hi : node.Performs (.arithmetic operation))
    (hexecute : m.execute node.toInstruction = (.ok (), after)) :
    e.frame.Traces graph start P node.next after := by
  have hcount : node.opcode.pops.count? none = some 2 := by
    rw [hi.popping]
    rfl
  obtain ⟨count, _, hcount', _, hle, heffect⟩ := effect_cases hmeets.effect
  rw [hcount] at hcount'
  cases hcount'
  have hinputs : node.inputs = (node.frame.stack.take 2).reverse := by
    rw [hmeets.inputs, heffect]
  have hstack := h.stack
  rcases hframe : node.frame.stack with _ | ⟨right, _ | ⟨left, behind⟩⟩
  · exact absurd hle (by simp [depth, hframe])
  · exact absurd hle (by simp [depth, hframe])
  · rw [hframe] at hinputs hstack
    obtain ⟨words, cells⟩ := m
    obtain _ | ⟨⟨b, hevalRight, hright, hlowRight, hwordRight⟩, hstack⟩ := hstack
    obtain _ | ⟨⟨a, hevalLeft, hleft, hlowLeft, hwordLeft⟩, hstack⟩ := hstack
    rw [Machine.execute_arithmetic hi.runs rfl] at hexecute
    cases hexecute
    apply h.step_of_push hmeets hi rfl hcount
    · intro _
      refine ⟨operation.apply a b, ?_, congruent_lowDword.apply operation hlowLeft hlowRight, ?_⟩
      · intro v hv
        exact .apply hmeets.recorded hv hinputs hi.runs hleft hright hevalLeft hevalRight
      · intro hP
        have hwithin := hclosed node hmeets.recorded hP
        rw [hinputs] at hwithin
        rw [hwordLeft (hwithin left List.mem_cons_self),
          hwordRight (hwithin right (List.mem_cons_of_mem _ List.mem_cons_self))]
    · intro _ hs
      cases hs

theorem step_of_pop {r : Register} (hi : node.Performs (.popRegister r))
    (hexecute : m.execute node.toInstruction = (.ok (), after)) :
    e.frame.Traces graph start P node.next after := by
  obtain ⟨count, kind, hcount, hkind, hle, rfl⟩ := effect_cases hmeets.effect
  rw [hi.popping] at hcount
  rw [hi.pushing] at hkind
  cases hcount
  cases hkind
  obtain ⟨v, stack, hframe⟩ := List.exists_cons_of_length_pos hle
  obtain ⟨hstack, hregisters⟩ := h.mono hmeets.lt_next
  obtain ⟨words, cells⟩ := m
  rw [hframe] at hstack
  obtain _ | ⟨hv, hstack⟩ := hstack
  rw [Machine.execute_eq_perform hi] at hexecute
  cases hexecute
  constructor
  · rw [behindPush, stack_behindPops, hframe]
    exact hstack
  · intro s hs
    rw [behindPush, registers_behindPops_pop hi.poppedRegister?_eq hframe]
    simp only [Machine.setRegister, RegisterFile.get_set, if_neg hs]
    split
    · exact .inl hv
    · exact hregisters s hs

theorem step_of_idle (hi : node.Performs .idle)
    (hexecute : m.execute node.toInstruction = (.ok (), after)) :
    e.frame.Traces graph start P node.next after := by
  obtain ⟨count, kind, hcount, hkind, _, rfl⟩ := effect_cases hmeets.effect
  rw [hi.popping] at hcount
  rw [hi.pushing] at hkind
  cases hcount
  cases hkind
  rw [Machine.execute_eq_perform hi] at hexecute
  cases hexecute
  exact (h.mono hmeets.lt_next).behindPops hi.poppedRegister?_eq 0 node.next.toUInt64

/-- An instruction that the machine performs keeps the words traced. -/
theorem step (hclosed : graph.ClosedUnder P) (hi : node.Performs action)
    (hexecute : m.execute node.toInstruction = (.ok (), after))
    (hcut : ∀ r, r ≠ .ip → node.Performs (.pushLowRegister r) →
      (∃ a ∈ (node.frame.registers.get r).sources, P a) →
      lowDword (m.registers.get r) = m.registers.get r) :
    e.frame.Traces graph start P node.next after := by
  cases action with
  | idle => exact h.step_of_idle hmeets hi hexecute
  | pushRegister r =>
    exact h.step_of_pushRegister (g := id) hmeets hi rfl rfl rfl (fun _ => rfl) (fun _ => rfl)
      (fun _ _ => rfl) hexecute
  | pushLowRegister r =>
    exact h.step_of_pushRegister hmeets hi rfl rfl rfl (fun _ => rfl) lowDword_lowDword
      (fun hip => hcut r hip hi) hexecute
  | push word =>
    have hpushes : ∀ m : Machine, m.execute node.toInstruction =
        (.ok (), (m.setRegister .ip node.next.toUInt64).push word) :=
      fun m => Machine.execute_eq_perform hi m
    rw [hpushes] at hexecute
    cases hexecute
    apply h.step_of_leaf hmeets hi rfl rfl
    · exact fun _ m _ => hpushes m
    · exact fun _ hs => (nomatch hs)
  | popRegister r => exact h.step_of_pop hmeets hi hexecute
  | arithmetic operation => exact h.step_of_arithmetic hmeets hclosed hi hexecute

end

section

variable {image : Image} {isa : InstructionSet} {key : UInt32} {instructions : List Instruction}
  {i last : Instruction} {nodes : List Node}

theorem exists_meets (hlays : image.Lays isa key f.ip.toNat (i :: (instructions ++ [last])))
    (halong : f.along (i :: (instructions ++ [last])) = .ok nodes)
    (hrecorded : ∀ node ∈ nodes, graph.get? node.offset = some node) :
    ∃ e others, nodes = ⟨i, f, e.popped, .nothing⟩ :: others ∧ i.offset = f.ip ∧
      Meets graph ⟨i, f, e.popped, .nothing⟩ e ∧
      image.Lays isa key i.next.toNat (instructions ++ [last]) ∧
      (e.frame.moveTo i.next).along (instructions ++ [last]) = .ok others ∧
      ∀ node ∈ others, graph.get? node.offset = some node := by
  obtain ⟨e, others, heffect, hothers, rfl⟩ := along_cons_eq_ok halong
  obtain ⟨hrest, hlt⟩ := hlays.behind (by simp)
  obtain _ | ⟨hstands, _⟩ := hlays
  exact ⟨e, others, rfl, UInt32.toNat_inj.1 hstands.offset,
    ⟨hrecorded _ List.mem_cons_self, heffect, rfl, hlt⟩, hrest, hothers,
    fun node hnode => hrecorded node (List.mem_cons_of_mem _ hnode)⟩

/-- Along straight code the words are traced up to the last instruction. -/
theorem run (h : f.Traces graph start P f.ip m)
    (hclosed : graph.ClosedUnder P)
    (hlays : image.Lays isa key f.ip.toNat (instructions ++ [last]))
    (hperforms : ∀ i ∈ instructions, ∃ action, i.Performs action)
    (halong : f.along (instructions ++ [last]) = .ok nodes)
    (hrecorded : ∀ node ∈ nodes, graph.get? node.offset = some node)
    (hwhole : graph.Whole P m instructions) (hrun : m.run instructions = .ok after) :
    ∃ node e, nodes.getLast? = some node ∧ node.toInstruction = last ∧
      node.frame.effect node.toInstruction none = .ok e ∧ node.inputs = e.popped ∧
      node.frame.Traces graph start P node.offset after := by
  induction instructions generalizing f m nodes with
  | nil =>
    obtain ⟨e, others, heffect, hothers, rfl⟩ := along_cons_eq_ok halong
    obtain _ | ⟨hstands, _⟩ := hlays
    have hoffset : last.offset = f.ip := UInt32.toNat_inj.1 hstands.offset
    cases hothers
    cases hrun
    refine ⟨_, e, rfl, rfl, heffect, rfl, ?_⟩
    change f.Traces graph start P last.offset _
    rw [hoffset]
    exact h
  | cons i rest ih =>
    obtain ⟨e, others, rfl, hoffset, hmeets, hrest, hothers, hrecorded⟩ :=
      exists_meets hlays halong hrecorded
    obtain ⟨action, hi⟩ := hperforms i List.mem_cons_self
    let node : Node := ⟨i, f, e.popped, .nothing⟩
    have hreached : node.frame.Traces graph start P node.offset m := by
      change f.Traces graph start P i.offset m
      rw [hoffset]
      exact h
    rw [Machine.run] at hrun
    split at hrun
    · next next hexecute =>
      have hcut : ∀ r, r ≠ .ip → node.Performs (.pushLowRegister r) →
          (∃ a ∈ (node.frame.registers.get r).sources, P a) →
          lowDword (m.registers.get r) = m.registers.get r := by
        intro r hip hpush hsource
        exact hwhole 0 i m r node rfl rfl hpush.runs hip hmeets.recorded hsource
      have hmoved := (hreached.step hmeets hclosed hi hexecute hcut).moveTo i.next
      have hlater : graph.Whole P next rest := by
        intro k j reached r other hj hreached
        apply hwhole (k + 1) j reached r other hj
        rw [List.take_succ_cons, Machine.run_cons hexecute, hreached]
      obtain ⟨jump, effect, hjump, hrecords⟩ := ih hmoved hrest
        (fun j hj => hperforms j (List.mem_cons_of_mem _ hj)) hothers hrecorded hlater hrun
      refine ⟨jump, effect, ?_, hrecords⟩
      rw [List.getLast?_cons, hjump]
      rfl
    · cases hrun

end

end Frame.Traces

end StackLift
