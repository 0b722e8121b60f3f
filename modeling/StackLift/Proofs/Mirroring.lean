import StackLift.Proofs.Abstraction
import StackLift.Proofs.Advancing

namespace StackLift

theorem lowDword_eq_toUInt64 (word : UInt64) : lowDword word = word.toUInt32.toUInt64 := by
  apply UInt64.toNat_inj.1
  rw [toNat_lowDword, UInt32.toNat_toUInt64, UInt64.toNat_toUInt32]

theorem lowDword_eq_iff {a b : UInt64} : lowDword a = lowDword b ↔ a.toUInt32 = b.toUInt32 := by
  rw [lowDword_eq_toUInt64, lowDword_eq_toUInt64, UInt32.toUInt64_inj]

/-- Neither the arithmetic of the machine nor taking the low half tells related words apart. -/
structure Congruent (R : UInt64 → UInt64 → Prop) : Prop where
  refl : ∀ a, R a a
  low : ∀ {a b}, R a b → R (lowDword a) (lowDword b)
  apply : ∀ operation {a b c d}, R a b → R c d →
    R (Arithmetic.apply operation a c) (Arithmetic.apply operation b d)

theorem congruent_eq : Congruent Eq := by
  refine ⟨fun _ => rfl, fun h => congrArg lowDword h, ?_⟩
  rintro operation a b c d rfl rfl
  rfl

theorem toUInt32_apply (operation : Arithmetic) {a b c d : UInt64} (hab : a.toUInt32 = b.toUInt32)
    (hcd : c.toUInt32 = d.toUInt32) :
    (operation.apply a c).toUInt32 = (operation.apply b d).toUInt32 := by
  cases operation <;> simp [Arithmetic.apply, lowDword_eq_toUInt64, hab, hcd]

theorem congruent_lowDword : Congruent fun a b => lowDword a = lowDword b := by
  refine ⟨fun _ => rfl, fun h => congrArg lowDword h, ?_⟩
  intro operation a b c d hab hcd
  rw [lowDword_eq_iff] at hab hcd ⊢
  exact toUInt32_apply operation hab hcd

namespace Outline

variable {o : Outline} {R : UInt64 → UInt64 → Prop} {store more : Nat → Option UInt64}
  {v : Provenance} {word : UInt64}

def Matches (o : Outline) (R : UInt64 → UInt64 → Prop) (store : Nat → Option UInt64)
    (v : Provenance) (word : UInt64) : Prop :=
  ∃ given, o.Gives store v given ∧ R given word

theorem Matches.mono (h : o.Matches R store v word)
    (hmore : ∀ index word, store index = some word → more index = some word) :
    o.Matches R more v word := by
  obtain ⟨given, hgives, hword⟩ := h
  exact ⟨given, hgives.mono hmore, hword⟩

end Outline

theorem Operand.eq_of_register? {operand : Operand} {r : Register}
    (h : operand.register? = some r) : operand = .register r := by
  cases operand <;> cases h
  rfl

namespace Instruction.Performs

variable {i : Instruction} {action : Action} {env : Environment} {words : List UInt64}
  {word : UInt64}

theorem poppedRegister?_eq_none (h : i.Performs action) (hpushes : action.pushes = .one) :
    i.poppedRegister? = none := by
  rw [h.poppedRegister?_eq, if_neg]
  cases action <;> simp [Action.pops, Action.pushes] at hpushes ⊢

theorem snapshotsRegister {r : Register} (h : i.Performs action)
    (hregister : action.register? = some r) (hpushes : action.pushes = .one) :
    i.snapshotsRegister = true := by
  rw [Instruction.snapshotsRegister, Operand.eq_of_register? (h.naming.trans hregister)]
  simp [h.pushing, hpushes]

theorem execute_eq (h : i.Performs action) {m : Machine}
    (hperform : ((Machine.mk env.registers words.reverse).setRegister .ip i.next.toUInt64).perform
      i.offset action = (.ok (), m)) :
    env.execute i words = .ok (m.stack.head?, { env with registers := m.registers }) := by
  rw [Environment.execute, Machine.execute_eq_perform h, hperform]

theorem makes (h : i.Performs action) {result : RegisterFile UInt64 → UInt64}
    (hperform : ∀ registers, (Machine.mk registers words.reverse).perform i.offset action =
      (.ok (), ⟨registers, [result registers]⟩))
    (hresult : ∀ now : Environment, (i.snapshotsRegister = true → now.Keeps env) →
      result (now.registers.set .ip i.next.toUInt64) = word) : i.Makes env words word := by
  intro now hnow
  refine ⟨{ now with registers := now.registers.set .ip i.next.toUInt64 }, ?_, rfl, ?_⟩
  · rw [h.execute_eq (hperform _), hresult now hnow]
    rfl
  · intro r hr
    exact RegisterFile.get_set_of_ne _ _ hr

end Instruction.Performs

theorem Environment.Keeps.get_set_ip {now env : Environment} (h : now.Keeps env) (word : UInt64)
    (r : Register) : (now.registers.set .ip word).get r = (env.registers.set .ip word).get r := by
  rw [RegisterFile.get_set, RegisterFile.get_set]
  split
  · rfl
  · next hr => exact h.registers r hr

/-- The environment mirrors the machine behind what was executed: every cell, and every register
that is known, is given as the word that is there, and the registers themselves agree but for the
instruction pointer. -/
structure Mirrors (graph : Graph) (R : UInt64 → UInt64 → Prop) (executed : List Instruction)
    (f : Frame) (m : Machine) (env : Environment) : Prop where
  stack : List.Forall₂ (graph.outline.Matches R env.store) f.stack m.stack
  registers : ∀ r, r ≠ .ip → R (env.registers.get r) (m.registers.get r)
  known : ∀ r, r ≠ .ip → (f.registers.get r).isEntry = false →
    graph.outline.Matches R env.store (f.registers.get r) (m.registers.get r) ∧
      ∃ i ∈ executed, i.Performs (.popRegister r)
  assigned : ∀ index word, env.store index = some word →
    ∃ i ∈ executed, graph.outline.naming.holder? i.offset = some index

namespace Mirrors

variable {graph : Graph} {R : UInt64 → UInt64 → Prop} {executed : List Instruction} {f : Frame}
  {m : Machine} {env next : Environment} {i : Instruction} {action : Action} {e : Effect}
  {v : Provenance} {given word : UInt64}

theorem start (hR : ∀ a, R a a) (graph : Graph) (ip key : UInt32)
    (registers : RegisterFile UInt64) :
    Mirrors graph R [] (.start ip key) ⟨registers, []⟩ (.start registers) := by
  refine ⟨.nil, fun r _ => hR _, ?_, fun _ _ hstored => (nomatch hstored)⟩
  intro r _ hentry
  rw [Frame.start, RegisterFile.get_fill] at hentry
  cases hentry

theorem moveTo (h : Mirrors graph R executed f m env) (ip : UInt32) :
    Mirrors graph R executed (f.moveTo ip) m env :=
  ⟨h.stack, h.registers, h.known, h.assigned⟩

theorem append (h : Mirrors graph R executed f m env) (more : List Instruction) :
    Mirrors graph R (executed ++ more) f m env := by
  refine ⟨h.stack, h.registers, ?_, ?_⟩
  · intro r hr hentry
    obtain ⟨hmatches, j, hj, hpop⟩ := h.known r hr hentry
    exact ⟨hmatches, j, List.mem_append_left _ hj, hpop⟩
  · intro index word hstored
    obtain ⟨j, hj, hholder⟩ := h.assigned index word hstored
    exact ⟨j, List.mem_append_left _ hj, hholder⟩

theorem keeps (h : Mirrors graph R executed f m env) (hnext : next.Keeps env) :
    Mirrors graph R executed f m next := by
  obtain ⟨hstack, hregisters, hknown, hassigned⟩ := h
  rw [← hnext.store] at hstack hknown hassigned
  refine ⟨hstack, ?_, hknown, hassigned⟩
  intro r hr
  rw [hnext.registers r hr]
  exact hregisters r hr

theorem store_eq_none (h : Mirrors graph R executed f m env) (hdirect : graph.Direct)
    (hnew : i.offset ∉ executed.map Instruction.offset) (index : Nat)
    (hholder : graph.outline.naming.holder? i.offset = some index) : env.store index = none := by
  cases hstored : env.store index with
  | none => rfl
  | some word =>
    obtain ⟨j, hj, hother⟩ := h.assigned index word hstored
    have hsame : i.offset = j.offset :=
      hdirect.eq_of_linked ((Graph.holder?_eq_some_iff hholder).1 hother)
    exact absurd (hsame ▸ List.mem_map_of_mem hj) hnew

theorem gains (h : Mirrors graph R executed f m env)
    (hnext : next.Gains env (graph.outline.naming.holder? i.offset) given)
    (hmore : next.Extends env.store) : Mirrors graph R (executed ++ [i]) f m next := by
  refine ⟨h.stack.imp fun _ _ hmatches => hmatches.mono hmore, ?_, ?_, ?_⟩
  · intro r hr
    rw [hnext.registers r hr]
    exact h.registers r hr
  · intro r hr hentry
    obtain ⟨hmatches, hpop⟩ := (h.append [i]).known r hr hentry
    exact ⟨hmatches.mono hmore, hpop⟩
  · intro index word hstored
    rw [hnext.store] at hstored
    split at hstored
    · next hholder => exact ⟨i, List.mem_append_right _ (List.mem_singleton_self i), hholder⟩
    · exact (h.append [i]).assigned index word hstored

theorem behindPops (h : Mirrors graph R executed f m env) (hi : i.poppedRegister? = none)
    (count : Nat) (ip : UInt64) :
    Mirrors graph R executed (f.behindPops i count)
      { m.setRegister .ip ip with stack := m.stack.drop count } env := by
  refine ⟨?_, ?_, ?_, h.assigned⟩
  · rw [Frame.stack_behindPops]
    exact List.forall₂_drop count h.stack
  · intro r hr
    rw [Machine.setRegister, RegisterFile.get_set_of_ne _ _ hr]
    exact h.registers r hr
  · intro r hr
    rw [Frame.registers_behindPops f hi, RegisterFile.get_set_of_ne _ _ hr, Machine.setRegister,
      RegisterFile.get_set_of_ne _ _ hr]
    exact h.known r hr

theorem push (h : Mirrors graph R executed f m env)
    (hv : graph.outline.Matches R env.store v word) :
    Mirrors graph R executed (f.push v) (m.push word) env :=
  ⟨.cons hv h.stack, h.registers, h.known, h.assigned⟩

theorem popInto {r : Register} {words : RegisterFile UInt64} {cells : List UInt64}
    {stack : List Provenance} (h : Mirrors graph R executed f ⟨words, word :: cells⟩ env)
    (hframe : f.stack = v :: stack) (hi : i.Performs (.popRegister r))
    (hgives : graph.outline.Gives env.store v given) (hword : R given word) (ip : UInt64) :
    Mirrors graph R (executed ++ [i]) (f.behindPops i 1) ⟨(words.set .ip ip).set r word, cells⟩
      { env with registers := (env.registers.set .ip ip).set r given } := by
  obtain ⟨hstack, hregisters, hknown, hassigned⟩ := h.append [i]
  have hpopped : i.poppedRegister? = some r := hi.poppedRegister?_eq
  refine ⟨?_, ?_, ?_, hassigned⟩
  · rw [hframe] at hstack
    rw [Frame.stack_behindPops, hframe]
    exact (List.forall₂_cons.1 hstack).2
  · intro s hs
    simp only [RegisterFile.get_set, if_neg hs]
    split
    · exact hword
    · exact hregisters s hs
  · intro s hs
    rw [Frame.registers_behindPops_pop hpopped hframe]
    simp only [RegisterFile.get_set, if_neg hs]
    split
    · next hsr =>
      intro _
      exact ⟨⟨given, hgives, hword⟩, i, List.mem_append_right _ (List.mem_singleton_self i),
        hsr ▸ hi⟩
    · exact hknown s hs

structure Meets (graph : Graph) (executed : List Instruction) (node : Node) (e : Effect) : Prop
    extends node.Bare where
  recorded : graph.get? node.offset = some node
  effect : node.frame.effect node.toInstruction none = .ok e
  inputs : node.inputs = e.popped
  new : node.offset ∉ executed.map Instruction.offset

section

variable {node : Node} (h : Mirrors graph R executed node.frame m env) (hdirect : graph.Direct)
  (hmeets : Meets graph executed node e)
include h hdirect hmeets

theorem advances_of_push (hi : node.Performs action) (hpushes : action.pushes = .one) {count : Nat}
    (hcount : node.opcode.pops.count? none = some count)
    (hmakes : ∀ givens, List.Forall₂ R givens (m.stack.take count).reverse →
      ∃ given, node.Makes env givens given ∧ R given word)
    (hpassed : ∀ r, action.register? = some r → r ≠ .ip →
      (node.frame.registers.get r).isEntry = false →
      ∀ given, R given (m.registers.get r) → R given word) :
    ∃ next, graph.outline.Advances node env next ∧
      Mirrors graph R (executed ++ [node.toInstruction]) e.frame
        { m.setRegister .ip node.next.toUInt64 with stack := word :: m.stack.drop count } next := by
  have hregister := hi.poppedRegister?_eq_none hpushes
  obtain ⟨count', kind, hcount', hkind, _, rfl⟩ := Frame.effect_cases hmeets.effect
  rw [hcount] at hcount'
  rw [hi.pushing.trans hpushes] at hkind
  cases hcount'
  cases hkind
  have hpopped : List.Forall₂ (graph.outline.Matches R env.store) node.inputs
      (m.stack.take count).reverse := by
    rw [hmeets.inputs]
    exact List.forall₂_reverse_iff.2 (List.forall₂_take count h.stack)
  obtain ⟨givens, hgives, hrelated⟩ := exists_forall₂_of_comp hpopped
  obtain ⟨given, hmade, hword⟩ := hmakes givens hrelated
  obtain ⟨next, hadvances, hgains⟩ :=
    Graph.advances_of_makes hdirect hmeets.recorded hmeets.toBare hgives hmade
  have hmore := hgains.extends (h.store_eq_none hdirect hmeets.new)
  have hown : ∀ kind, graph.outline.Gives next.store (.producedBy node.offset kind) given := by
    apply Outline.gives_producedBy ?_ ?_ hmeets.recorded
    · intro index hholder
      rw [hgains.store, if_pos hholder]
    · intro hinlined path e he
      have hsnapshot := Graph.not_snapshots_of_inlined hmeets.recorded hinlined
      exact (Outline.yields_expression hmeets.toBare hsnapshot hgives hmade he).mono hmore
  refine ⟨next, hadvances,
    ((h.behindPops hregister count node.next.toUInt64).gains hgains hmore).push ?_⟩
  rcases Frame.pushed_cases node.frame hregister count node.opcode.kind with
    ⟨⟨kind, hpushed⟩, _⟩ | ⟨r, hr, hip, hentry, hpushed⟩
  · rw [hpushed]
    exact ⟨given, hown kind, hword⟩
  · have hnames : action.register? = some r := by
      rw [← hi.naming, hr]
      rfl
    obtain ⟨⟨known, hknown, hrelated⟩, _⟩ := h.known r hip hentry
    rw [hpushed]
    exact ⟨known, hknown.mono hmore, hpassed r hnames hip hentry known hrelated⟩

theorem advances_of_pop {r : Register} (hi : node.Performs (.popRegister r)) :
    ∃ after next, m.execute node.toInstruction = (.ok (), after) ∧
      graph.outline.Advances node env next ∧
      Mirrors graph R (executed ++ [node.toInstruction]) e.frame after next := by
  have hexecute := Machine.execute_eq_perform hi m
  obtain ⟨count, kind, hcount, hkind, hle, rfl⟩ := Frame.effect_cases hmeets.effect
  rw [hi.popping] at hcount
  rw [hi.pushing] at hkind
  cases hcount
  cases hkind
  obtain ⟨v, stack, hframe⟩ := List.exists_cons_of_length_pos hle
  obtain ⟨words, cells⟩ := m
  have hstack := h.stack
  rw [hframe] at hstack
  obtain _ | ⟨⟨given, hgives, hword⟩, _⟩ := hstack
  let next (ready : Environment) : Environment :=
    { ready with registers := (ready.registers.set .ip node.next.toUInt64).set r given }
  have hrun : ∀ ready : Environment,
      ready.execute node.toInstruction [given] = .ok (none, next ready) :=
    fun ready => hi.execute_eq (m := ⟨(next ready).registers, []⟩) rfl
  have hinputs : List.Forall₂ (graph.outline.Gives env.store) node.inputs [given] := by
    rw [hmeets.inputs, hframe]
    exact .cons hgives .nil
  obtain ⟨ready, hready, hadvances⟩ :=
    Graph.advances_of_execute hdirect hmeets.recorded hmeets.toBare hi.pushing hinputs hrun
  have hmirrors := h.popInto hframe hi hgives hword node.next.toUInt64
  have hnext : (next ready).Keeps (next env) := by
    refine ⟨hready.store, fun s hs => ?_⟩
    simp only [next, RegisterFile.get_set, if_neg hs, hready.registers s hs]
  exact ⟨_, next ready, hexecute, hadvances, hmirrors.keeps hnext⟩

theorem advances_of_idle (hi : node.Performs .idle) :
    ∃ after next, m.execute node.toInstruction = (.ok (), after) ∧
      graph.outline.Advances node env next ∧
      Mirrors graph R (executed ++ [node.toInstruction]) e.frame after next := by
  obtain ⟨count, kind, hcount, hkind, _, rfl⟩ := Frame.effect_cases hmeets.effect
  rw [hi.popping] at hcount
  rw [hi.pushing] at hkind
  cases hcount
  cases hkind
  let next (ready : Environment) : Environment :=
    { ready with registers := ready.registers.set .ip node.next.toUInt64 }
  have hrun : ∀ ready : Environment, ready.execute node.toInstruction [] = .ok (none, next ready) :=
    fun ready => hi.execute_eq (m := ⟨(next ready).registers, []⟩) rfl
  have hinputs : List.Forall₂ (graph.outline.Gives env.store) node.inputs [] := by
    rw [hmeets.inputs]
    exact .nil
  obtain ⟨ready, hready, hadvances⟩ :=
    Graph.advances_of_execute hdirect hmeets.recorded hmeets.toBare hi.pushing hinputs hrun
  have hnext : (next ready).Keeps env :=
    ⟨hready.store, fun r hr => (RegisterFile.get_set_of_ne _ _ hr).trans (hready.registers r hr)⟩
  have hbehind := h.behindPops hi.poppedRegister?_eq 0 node.next.toUInt64
  exact ⟨_, next ready, Machine.execute_eq_perform hi m, hadvances,
    (hbehind.keeps hnext).append [node.toInstruction]⟩

theorem advances_of_pushRegister {r : Register} {g : UInt64 → UInt64} (hR : Congruent R)
    (hi : node.Performs action) (hpushes : action.pushes = .one) (hpops : action.pops = .none)
    (hregister : action.register? = some r)
    (hperform : ∀ m : Machine,
      m.perform node.offset action = (.ok (), m.push (g (m.registers.get r))))
    (hg : ∀ {a b}, R a b → R (g a) (g b))
    (hpassed : r ≠ .ip → (node.frame.registers.get r).isEntry = false →
      ∀ given, R given (m.registers.get r) → R given (g (m.registers.get r))) :
    ∃ after next, m.execute node.toInstruction = (.ok (), after) ∧
      graph.outline.Advances node env next ∧
      Mirrors graph R (executed ++ [node.toInstruction]) e.frame after next := by
  have hcount : node.opcode.pops.count? none = some 0 := by
    rw [hi.popping, hpops]
    rfl
  have hexecute := (Machine.execute_eq_perform hi m).trans (hperform _)
  have hset : R ((env.registers.set .ip node.next.toUInt64).get r)
      ((m.registers.set .ip node.next.toUInt64).get r) := by
    rw [RegisterFile.get_set, RegisterFile.get_set]
    split
    · exact hR.refl _
    · next hr => exact h.registers r hr
  have hmakes : ∀ givens, List.Forall₂ R givens (m.stack.take 0).reverse →
      ∃ given, node.Makes env givens given ∧
        R given (g ((m.registers.set .ip node.next.toUInt64).get r)) := by
    rintro _ ⟨⟩
    refine ⟨_, hi.makes (fun registers => hperform ⟨registers, []⟩) ?_, hg hset⟩
    intro now hnow
    exact congrArg g ((hnow (hi.snapshotsRegister hregister hpushes)).get_set_ip _ r)
  obtain ⟨next, hadvances, hmirrors⟩ := h.advances_of_push hdirect hmeets hi hpushes hcount hmakes
    fun s hs hip hentry given hgiven => by
      cases hregister.symm.trans hs
      rw [RegisterFile.get_set_of_ne _ _ hip]
      exact hpassed hip hentry given hgiven
  exact ⟨_, next, hexecute, hadvances, hmirrors⟩

end

/-- What is related to the word of a register stays related to its low half, where a push takes that
of a register that was popped into. -/
def LowReads (R : UInt64 → UInt64 → Prop) (executed : List Instruction) (i : Instruction) : Prop :=
  ∀ r, r ≠ .ip → i.Performs (.pushLowRegister r) → (∃ j ∈ executed, j.Performs (.popRegister r)) →
    ∀ a b, R a b → R a (lowDword b)

/-- An instruction that the machine performs keeps the environment in step with it. -/
theorem advances {node : Node} (h : Mirrors graph R executed node.frame m env) (hR : Congruent R)
    (hdirect : graph.Direct) (hmeets : Meets graph executed node e) (hi : node.Performs action)
    (hlow : LowReads R executed node.toInstruction) :
    ∃ after next, m.execute node.toInstruction = (.ok (), after) ∧
      graph.outline.Advances node env next ∧
      Mirrors graph R (executed ++ [node.toInstruction]) e.frame after next := by
  have hexecute := Machine.execute_eq_perform hi m
  have hcount : node.opcode.pops.count? none = action.pops.count? none := by
    rw [hi.popping]
  cases action with
  | idle => exact h.advances_of_idle hdirect hmeets hi
  | pushRegister r =>
    exact h.advances_of_pushRegister (g := id) hdirect hmeets hR hi rfl rfl rfl (fun _ => rfl)
      (fun hab => hab) fun _ _ _ hgiven => hgiven
  | pushLowRegister r =>
    refine h.advances_of_pushRegister hdirect hmeets hR hi rfl rfl rfl (fun _ => rfl) hR.low ?_
    intro hip hentry given hgiven
    exact hlow r hip hi (h.known r hip hentry).2 _ _ hgiven
  | push word =>
    have hmakes : ∀ givens, List.Forall₂ R givens (m.stack.take 0).reverse →
        ∃ given, node.Makes env givens given ∧ R given word := by
      rintro _ ⟨⟩
      exact ⟨word, hi.makes (fun _ => rfl) fun _ _ => rfl, hR.refl word⟩
    obtain ⟨next, hadvances, hmirrors⟩ :=
      h.advances_of_push hdirect hmeets hi rfl hcount hmakes fun _ hs => (nomatch hs)
    exact ⟨_, next, hexecute, hadvances, hmirrors⟩
  | popRegister r => exact h.advances_of_pop hdirect hmeets hi
  | arithmetic operation =>
    obtain ⟨count, _, hcount', _, hle, _⟩ := Frame.effect_cases hmeets.effect
    rw [hcount] at hcount'
    cases hcount'
    have hdepth : node.frame.depth = m.stack.length := h.stack.length_eq
    obtain ⟨words, cells⟩ := m
    rcases cells with _ | ⟨b, _ | ⟨a, rest⟩⟩
    · exact absurd (hdepth ▸ hle) (by simp)
    · exact absurd (hdepth ▸ hle) (by simp)
    · have hmakes : ∀ givens, List.Forall₂ R givens [a, b] →
          ∃ given, node.Makes env givens given ∧ R given (operation.apply a b) := by
        rintro _ (_ | ⟨ha, _ | ⟨hb, _ | _⟩⟩)
        exact ⟨_, hi.makes (fun _ => rfl) fun _ _ => rfl, hR.apply operation ha hb⟩
      obtain ⟨next, hadvances, hmirrors⟩ :=
        h.advances_of_push hdirect hmeets hi rfl hcount hmakes fun _ hs => (nomatch hs)
      exact ⟨_, next, hexecute, hadvances, hmirrors⟩

theorem run_of_leaves {node : Node} (hdirect : graph.Direct)
    (hrecorded : graph.get? node.offset = some node) (hbare : node.Bare)
    (hflow : node.opcode.flow = .leave) (hpushes : node.opcode.pushes = .none)
    {rest : List UInt32} {statements : List Statement}
    (hstatements : graph.outline.statements (node.offset :: rest) = .ok statements) :
    env.run statements = .ok env := by
  have hget : graph.outline.graph.get? node.offset = some node := hrecorded
  have hinlined : node.offset ∉ graph.outline.inlined := (hdirect.not_placed hrecorded hpushes).2
  rw [Outline.statements, hget] at hstatements
  simp only [if_neg hinlined] at hstatements
  obtain ⟨e, he, hstatements⟩ := bind_eq_ok.1 hstatements
  obtain ⟨others, _, hstatements⟩ := bind_eq_ok.1 hstatements
  cases hstatements
  rw [Environment.run, Outline.leaves_expression hbare he, hflow]
  rfl

/-- Straight code is evaluated, up to the last instruction, to what the machine makes of it. -/
theorem run {instructions : List Instruction} {last : Instruction} {nodes : List Node}
    {statements : List Statement} (h : Mirrors graph R executed f m env) (hR : Congruent R)
    (hdirect : graph.Direct) (halong : f.along (instructions ++ [last]) = .ok nodes)
    (hrecorded : ∀ node ∈ nodes, graph.get? node.offset = some node)
    (hsized : ∀ i ∈ instructions ++ [last], i.Sized)
    (hdistinct : ((executed ++ instructions).map Instruction.offset).Nodup)
    (hperforms : ∀ i ∈ instructions, ∃ action, i.Performs action)
    (hflow : last.opcode.flow = .leave) (hpushes : last.opcode.pushes = .none)
    (hlow : ∀ earlier i later, executed ++ instructions = earlier ++ i :: later →
      LowReads R earlier i)
    (hstatements : graph.outline.statements (nodes.map fun node => node.offset) = .ok statements) :
    ∃ final after, m.run instructions = .ok final ∧ env.run statements = .ok after ∧
      ∀ r, r ≠ .ip → R (after.registers.get r) (final.registers.get r) := by
  -- What was executed grows with every instruction, and with it what the variables may hold.
  induction instructions generalizing executed f m env nodes statements with
  | nil =>
    obtain ⟨e, others, _, _, rfl⟩ := Frame.along_cons_eq_ok halong
    have hget := hrecorded _ List.mem_cons_self
    have hbare : Node.Bare ⟨last, f, e.popped, .nothing⟩ :=
      ⟨hsized last (List.mem_singleton_self last), rfl⟩
    exact ⟨m, env, rfl, run_of_leaves hdirect hget hbare hflow hpushes hstatements, h.registers⟩
  | cons i rest ih =>
    obtain ⟨e, others, heffect, hothers, rfl⟩ := Frame.along_cons_eq_ok halong
    obtain ⟨action, hi⟩ := hperforms i List.mem_cons_self
    have hnew : i.offset ∉ executed.map Instruction.offset := by
      rw [List.map_append] at hdistinct
      exact fun hmem => (List.nodup_append.1 hdistinct).2.2 _ hmem _ List.mem_cons_self rfl
    let node : Node := ⟨i, f, e.popped, .nothing⟩
    have hmeets : Meets graph executed node e :=
      ⟨⟨hsized i List.mem_cons_self, rfl⟩, hrecorded node List.mem_cons_self, heffect, rfl, hnew⟩
    have hreached : Mirrors graph R executed node.frame m env := h
    obtain ⟨after, next, hexecute, hadvances, hmirrors⟩ :=
      hreached.advances hR hdirect hmeets hi (hlow executed i rest rfl)
    obtain ⟨later, hlater, hrun⟩ :=
      hadvances.run_statements hmeets.toBare hi.flow hmeets.recorded hstatements
    rw [List.append_cons] at hdistinct
    obtain ⟨final, behind, hfinal, hbehind, hregisters⟩ := ih (hmirrors.moveTo i.next) hothers
      (fun node hnode => hrecorded node (List.mem_cons_of_mem _ hnode))
      (fun j hj => hsized j (List.mem_cons_of_mem _ hj)) hdistinct
      (fun j hj => hperforms j (List.mem_cons_of_mem _ hj))
      (fun earlier j later hsplit => hlow earlier j later (by rw [List.append_cons, hsplit])) hlater
    refine ⟨final, behind, ?_, hrun.trans hbehind, hregisters⟩
    rw [Machine.run_cons hexecute, hfinal]

end Mirrors

end StackLift
