import StackLift.Proofs.Abstraction
import StackLift.Proofs.Closure

namespace StackLift

namespace Arithmetic

def commutes : Arithmetic → Bool
  | subDword | shlDword | shrDword => false
  | _ => true

theorem commutes_iff {operation : Arithmetic} :
    operation.commutes = true ↔ ∀ a b, operation.apply a b = operation.apply b a := by
  constructor
  · intro h a b
    cases operation with
    | addDword => exact congrArg lowDword (UInt64.add_comm a b)
    | addQword => exact UInt64.add_comm a b
    | mulDword => exact congrArg lowDword (UInt64.mul_comm a b)
    | xorDword => exact congrArg lowDword (UInt64.xor_comm a b)
    | norDword => exact congrArg (fun word => lowDword (~~~word)) (UInt64.or_comm a b)
    | subDword | shlDword | shrDword => cases h
  · intro h
    cases operation with
    | subDword | shlDword | shrDword => exact absurd (h 0 1) (by decide)
    | _ => rfl

end Arithmetic

/-- The registers are as they were at the start, but for the instruction pointer. -/
def Machine.Resumes (m start : Machine) : Prop :=
  ∀ r, r ≠ .ip → m.registers.get r = start.registers.get r

def Instruction.PushesWord (i : Instruction) (start : Machine) (word : UInt64) : Prop :=
  ∀ m : Machine, m.Resumes start →
    m.execute i = (.ok (), (m.setRegister .ip i.next.toUInt64).push word)

namespace Graph

/-- The word that the source of a value makes of what it consumes. The registers that it reads are
as they were at the start. -/
inductive Evaluates (graph : Graph) (start : Machine) : Provenance → UInt64 → Prop
  | push {node : Node} {v : Provenance} {word : UInt64} : graph.get? node.offset = some node →
      v.sources = .singleton node.offset → node.inputs = [] → node.PushesWord start word →
      Evaluates graph start v word
  | apply {node : Node} {v left right : Provenance} {a b : UInt64} {operation : Arithmetic} :
      graph.get? node.offset = some node → v.sources = .singleton node.offset →
      node.inputs = [left, right] →
      Action.of? node.opcode.code node.operand = some (.arithmetic operation) →
      left.Within (· < node.offset) → right.Within (· < node.offset) →
      Evaluates graph start left a → Evaluates graph start right b →
      Evaluates graph start v (operation.apply a b)

/-- All that the one value rests on stands before all that the other rests on. -/
def before (graph : Graph) (v w : Provenance) : Bool :=
  (graph.rests v).toList.all fun a => (graph.rests w).toList.all fun b => a < b

/-- The operands of an operation stand in their order, or in the other if they can be exchanged. -/
def inOrder (graph : Graph) (node : Node) : Bool :=
  match Action.of? node.opcode.code node.operand, node.inputs with
  | some (.arithmetic operation), [left, right] =>
    graph.before left right || operation.commutes && graph.before right left
  | _, _ => true

def ordered (graph : Graph) (v : Provenance) : Bool :=
  (graph.rests v).toList.all fun a => (graph.get? a).all graph.inOrder

variable {graph : Graph} {start : Machine} {v left right : Provenance} {word : UInt64}
  {a b : UInt32}

theorem before_iff : graph.before left right = true ↔
    ∀ a ∈ graph.rests left, ∀ b ∈ graph.rests right, a < b := by
  simp only [before, List.all_eq_true, decide_eq_true_eq]
  rfl

theorem ordered_iff : graph.ordered v = true ↔
    ∀ a ∈ graph.rests v, ∀ node, graph.get? a = some node → graph.inOrder node = true := by
  simp only [ordered, List.all_eq_true, Option.all_eq_true]
  rfl

theorem ordered_mono {w : Provenance} (h : graph.ordered v = true)
    (hrests : ∀ b ∈ graph.rests w, b ∈ graph.rests v) : graph.ordered w = true :=
  ordered_iff.2 fun b hb => ordered_iff.1 h b (hrests b hb)

theorem before_of_ordered {node : Node} {operation : Arithmetic} (h : graph.ordered v = true)
    (hmem : node.offset ∈ graph.rests v) (hnode : graph.get? node.offset = some node)
    (haction : Action.of? node.opcode.code node.operand = some (.arithmetic operation))
    (hinputs : node.inputs = [left, right]) : graph.before left right = true ∨
      operation.commutes = true ∧ graph.before right left = true := by
  have horder := ordered_iff.1 h node.offset hmem node hnode
  rw [inOrder, haction, hinputs] at horder
  rwa [Bool.or_eq_true, Bool.and_eq_true] at horder

/-- What stands in order is replayed in order. -/
theorem producers_eq_append {node : Node} {first second : Provenance}
    (hnode : graph.get? node.offset = some node)
    (hmem : ∀ b, b ∈ graph.rests v ↔
      b = node.offset ∨ b ∈ graph.rests first ∨ b ∈ graph.rests second)
    (hbefore : graph.before first second = true) (hfirst : ∀ b ∈ graph.rests first, b < node.offset)
    (hsecond : ∀ b ∈ graph.rests second, b < node.offset) :
    graph.producers v =
      graph.producers first ++ (graph.producers second ++ [node.toInstruction]) := by
  have hlist : (graph.rests v).toList =
      (graph.rests first).toList ++ ((graph.rests second).toList ++ [node.offset]) := by
    apply eq_of_ascending id (graph.rests v).ascending
    · refine List.pairwise_append.2 ⟨(graph.rests first).ascending, List.pairwise_append.2
        ⟨(graph.rests second).ascending, List.pairwise_singleton _ _, ?_⟩, ?_⟩
      · intro b hb a ha
        rw [List.mem_singleton.1 ha]
        exact hsecond b hb
      · intro b hb a ha
        rcases List.mem_append.1 ha with ha | ha
        · exact before_iff.1 hbefore b hb a ha
        · rw [List.mem_singleton.1 ha]
          exact hfirst b hb
    · intro b
      rw [List.mem_append, List.mem_append, List.mem_singleton]
      refine (hmem b).trans ?_
      rw [OffsetSet.mem_toList, OffsetSet.mem_toList]
      tauto
  simp only [producers_eq, hlist, List.filterMap_append, filterMap_get?_singleton hnode]

namespace Evaluates

variable (h : graph.Evaluates start v word)
include h

theorem le_source : ∀ b ∈ graph.rests v, ∃ a ∈ v.sources, b ≤ a := by
  induction h with
  | @push node v _ hnode hv hinputs _ =>
    intro b hb
    rw [mem_rests_of_node hnode hv, hinputs] at hb
    obtain rfl | ⟨_, hinput, _⟩ := hb
    · exact ⟨node.offset, hv ▸ OffsetSet.mem_singleton.2 rfl, UInt32.le_refl _⟩
    · cases hinput
  | @apply node v left right _ _ _ hnode hv hinputs _ hleft hright _ _ ihleft ihright =>
    intro b hb
    have hself : node.offset ∈ v.sources := hv ▸ OffsetSet.mem_singleton.2 rfl
    rcases (mem_rests_of_operands hnode hv hinputs).1 hb with rfl | hb | hb
    · exact ⟨_, hself, UInt32.le_refl _⟩
    · obtain ⟨a, ha, hle⟩ := ihleft b hb
      exact ⟨_, hself, UInt32.le_trans hle (UInt32.le_of_lt (hleft a ha))⟩
    · obtain ⟨a, ha, hle⟩ := ihright b hb
      exact ⟨_, hself, UInt32.le_trans hle (UInt32.le_of_lt (hright a ha))⟩

theorem lt_of_within {bound : UInt32} (hv : v.Within (· < bound)) :
    ∀ b ∈ graph.rests v, b < bound := by
  intro b hb
  obtain ⟨a, ha, hle⟩ := h.le_source b hb
  exact UInt32.lt_of_le_of_lt hle (hv a ha)

end Evaluates

end Graph

theorem Machine.Resumes.setRegister_ip {m start : Machine} (h : m.Resumes start) (word : UInt64) :
    (m.setRegister .ip word).Resumes start := by
  intro r hr
  rw [setRegister, RegisterFile.get_set_of_ne _ _ hr]
  exact h r hr

theorem Machine.of_fold_eq_ok {m : Machine} {instructions : List Instruction} {word : UInt64}
    (h : m.fold instructions = .ok word) : ∃ after,
      { m with stack := [] }.run instructions = .ok after ∧ ∃ rest, after.stack = word :: rest := by
  rw [fold] at h
  cases hrun : { m with stack := [] }.run instructions with
  | error fault =>
    rw [hrun] at h
    cases h
  | ok after =>
    rw [hrun] at h
    obtain ⟨registers, _ | ⟨top, rest⟩⟩ := after
    · cases h
    · cases h
      exact ⟨_, rfl, rest, rfl⟩

theorem Machine.execute_arithmetic {i : Instruction} {operation : Arithmetic}
    (hi : Action.of? i.opcode.code i.operand = some (.arithmetic operation)) {m : Machine}
    {a b : UInt64} {rest : List UInt64} (hstack : m.stack = b :: a :: rest) :
    m.execute i = (.ok (),
      { m.setRegister .ip i.next.toUInt64 with stack := operation.apply a b :: rest }) := by
  simp only [execute, hi, perform, setRegister, hstack]

namespace Graph

variable {graph : Graph} {start : Machine} {v left right : Provenance} {word : UInt64}

theorem run_operands {node : Node} {first second : Provenance} {m behind ready : Machine}
    {operation : Arithmetic} {a b : UInt64} {rest : List UInt64}
    (hproducers : graph.producers v =
      graph.producers first ++ (graph.producers second ++ [node.toInstruction]))
    (hfirst : m.run (graph.producers first) = .ok behind)
    (hsecond : behind.run (graph.producers second) = .ok ready)
    (hstack : ready.stack = b :: a :: rest)
    (haction : Action.of? node.opcode.code node.operand = some (.arithmetic operation)) :
    m.run (graph.producers v) = .ok
      { ready.setRegister .ip node.next.toUInt64 with stack := operation.apply a b :: rest } := by
  rw [hproducers, Machine.run_append, hfirst]
  change behind.run _ = _
  rw [Machine.run_append, hsecond]
  exact Machine.run_cons (Machine.execute_arithmetic haction hstack) []

/-- Where instructions stand in the order of their operands, replaying them leaves on the stack what
they make of these. -/
theorem Evaluates.run_replay (h : graph.Evaluates start v word) (hordered : graph.ordered v = true)
    {m : Machine} (hm : m.Resumes start) :
    ∃ after, m.run (graph.producers v) = .ok after ∧ after.Resumes start ∧
      after.stack = word :: m.stack := by
  induction h generalizing m with
  | @push node v word hnode hv hinputs hpushes =>
    have hnone : ∀ a ∈ v.sources, graph.inputSources a = [] := by
      intro a ha
      rw [hv, OffsetSet.mem_singleton] at ha
      rw [ha, inputSources_eq hnode, hinputs]
      rfl
    have hproducers : graph.producers v = [node.toInstruction] := by
      rw [producers_eq, rests_eq_sources hnone, hv]
      exact filterMap_get?_singleton hnode
    refine ⟨(m.setRegister .ip node.next.toUInt64).push word, ?_, hm.setRegister_ip _, rfl⟩
    rw [hproducers, Machine.run_cons (hpushes m hm)]
    rfl
  | @apply node v left right a b operation hnode hv hinputs haction hleft hright hevalLeft
      hevalRight ihleft ihright =>
    have hmem := fun c => mem_rests_of_operands (b := c) hnode hv hinputs
    have hltLeft := hevalLeft.lt_of_within hleft
    have hltRight := hevalRight.lt_of_within hright
    have hleft := ordered_mono hordered fun c hc => (hmem c).2 (.inr (.inl hc))
    have hright := ordered_mono hordered fun c hc => (hmem c).2 (.inr (.inr hc))
    rcases before_of_ordered hordered ((hmem _).2 (.inl rfl)) hnode haction hinputs with
      hbefore | ⟨hcommutes, hbefore⟩
    · obtain ⟨behind, hbehind, hresumes, hstack⟩ := ihleft hleft hm
      obtain ⟨ready, hready, hresumes, hstack'⟩ := ihright hright hresumes
      rw [hstack] at hstack'
      have hproducers := producers_eq_append hnode hmem hbefore hltLeft hltRight
      exact ⟨_, run_operands hproducers hbehind hready hstack' haction,
        hresumes.setRegister_ip node.next.toUInt64, rfl⟩
    · obtain ⟨behind, hbehind, hresumes, hstack⟩ := ihright hright hm
      obtain ⟨ready, hready, hresumes, hstack'⟩ := ihleft hleft hresumes
      rw [hstack] at hstack'
      have hswapped := fun c => (hmem c).trans (or_congr_right or_comm)
      have hproducers := producers_eq_append hnode hswapped hbefore hltRight hltLeft
      rw [Arithmetic.commutes_iff.1 hcommutes]
      exact ⟨_, run_operands hproducers hbehind hready hstack' haction,
        hresumes.setRegister_ip node.next.toUInt64, rfl⟩

theorem Evaluates.fold_eq (h : graph.Evaluates start v word) (hordered : graph.ordered v = true)
    {m : Machine} (hm : m.Resumes start) : m.fold (graph.producers v) = .ok word := by
  obtain ⟨⟨registers, stack⟩, hrun, _, hstack⟩ :=
    h.run_replay hordered (m := { m with stack := [] }) hm
  obtain rfl : stack = [word] := hstack
  rw [Machine.fold, hrun]
  rfl

theorem Evaluates.exists_node (h : graph.Evaluates start v word) :
    ∃ node, graph.get? node.offset = some node ∧ v.sources = .singleton node.offset := by
  cases h with
  | push hnode hv => exact ⟨_, hnode, hv⟩
  | apply hnode hv => exact ⟨_, hnode, hv⟩

theorem Evaluates.of_mem_rests (h : graph.Evaluates start v word) :
    ∀ a ∈ graph.rests v, ∃ w word, w.sources = .singleton a ∧ graph.Evaluates start w word := by
  induction h with
  | @push node v word hnode hv hinputs hpushes =>
    intro a ha
    rw [mem_rests_of_node hnode hv, hinputs] at ha
    obtain rfl | ⟨_, hinput, _⟩ := ha
    · exact ⟨v, word, hv, .push hnode hv hinputs hpushes⟩
    · cases hinput
  | apply hnode hv hinputs haction hleft hright hevalLeft hevalRight ihleft ihright =>
    intro a ha
    rcases (mem_rests_of_operands hnode hv hinputs).1 ha with rfl | ha | ha
    · exact ⟨_, _, hv, .apply hnode hv hinputs haction hleft hright hevalLeft hevalRight⟩
    · exact ihleft a ha
    · exact ihright a ha

theorem Evaluates.length_execute (h : graph.Evaluates start v word) {node : Node}
    (hnode : graph.get? node.offset = some node) (hsource : v.sources = .singleton node.offset)
    {m after : Machine} (hm : m.Resumes start)
    (hexecute : m.execute node.toInstruction = (.ok (), after)) :
    after.Resumes start ∧
      after.stack.length + (graph.inputSources node.offset).length = m.stack.length + 1 := by
  have hsame : ∀ {other : Node}, graph.get? other.offset = some other →
      v.sources = .singleton other.offset → other = node := by
    intro other hother hv
    have hoffset : other.offset = node.offset := by
      rw [← OffsetSet.mem_singleton, ← hsource, hv]
      exact OffsetSet.mem_singleton.2 rfl
    exact Option.some.inj ((hoffset ▸ hother).symm.trans hnode)
  cases h with
  | push hget hv hinputs hpushes =>
    obtain rfl := hsame hget hv
    rw [hpushes m hm] at hexecute
    cases hexecute
    refine ⟨hm.setRegister_ip _, ?_⟩
    rw [inputSources_eq hnode, hinputs]
    rfl
  | @apply other _ _ _ _ _ _ hget hv hinputs haction _ _ hevalLeft hevalRight =>
    obtain rfl := hsame hget hv
    obtain ⟨l, _, hl⟩ := hevalLeft.exists_node
    obtain ⟨r, _, hr⟩ := hevalRight.exists_node
    have htwo : (graph.inputSources other.offset).length = 2 := by
      rw [inputSources_eq hnode, hinputs]
      simp [hl, hr, OffsetSet.singleton]
    obtain ⟨registers, stack⟩ := m
    simp only [Machine.execute, haction, Machine.perform, Machine.setRegister] at hexecute
    rcases stack with _ | ⟨b, _ | ⟨c, rest⟩⟩
    · cases hexecute
    · cases hexecute
    · cases hexecute
      exact ⟨hm.setRegister_ip _, by simp [htwo]⟩

theorem length_run {offsets : List UInt32}
    (h : ∀ a ∈ offsets, ∃ w word, w.sources = .singleton a ∧ graph.Evaluates start w word)
    {m after : Machine} (hm : m.Resumes start)
    (hrun : m.run (offsets.filterMap fun offset => (graph.get? offset).map Node.toInstruction) =
      .ok after) :
    after.stack.length + (offsets.flatMap graph.inputSources).length =
      m.stack.length + offsets.length := by
  induction offsets generalizing m with
  | nil =>
    cases hrun
    rfl
  | cons a rest ih =>
    obtain ⟨w, word, hsource, heval⟩ := h a List.mem_cons_self
    obtain ⟨node, hnode, hnamed⟩ := heval.exists_node
    obtain rfl : a = node.offset := by
      rw [← OffsetSet.mem_singleton, ← hnamed, hsource]
      exact OffsetSet.mem_singleton.2 rfl
    rw [List.filterMap_cons_some (by rw [hnode]; rfl), Machine.run] at hrun
    split at hrun
    · next next hexecute =>
      obtain ⟨hresumes, hlength⟩ := heval.length_execute hnode hsource hm hexecute
      have hrest := ih (fun b hb => h b (List.mem_cons_of_mem _ hb)) hresumes hrun
      rw [List.flatMap_cons, List.length_append, List.length_cons]
      omega
    · cases hrun

/-- Where a replay makes a word, nothing that it replays is consumed twice: every instruction but
the last is consumed, and there is no room for more. -/
theorem Evaluates.nodup_inputSources (h : graph.Evaluates start v word) {m : Machine}
    (hm : m.Resumes start) {made : UInt64} (hfold : m.fold (graph.producers v) = .ok made) :
    ((graph.rests v).toList.flatMap graph.inputSources).Nodup := by
  let offsets := (graph.rests v).toList
  let consumed := offsets.flatMap graph.inputSources
  obtain ⟨node, hnode, hsource⟩ := h.exists_node
  obtain ⟨after, hrun, rest, hstack⟩ := Machine.of_fold_eq_ok hfold
  have hlength : after.stack.length + consumed.length = offsets.length := by
    have hlength := length_run h.of_mem_rests (m := { m with stack := [] }) hm hrun
    rwa [List.length_nil, Nat.zero_add] at hlength
  have hpos : 0 < after.stack.length := by
    rw [hstack]
    exact Nat.succ_pos _
  have hself : node.offset ∈ offsets := (mem_rests_of_node hnode hsource).2 (.inl rfl)
  have hdistinct : offsets.Nodup := (graph.rests v).ascending.imp fun hlt => UInt32.ne_of_lt hlt
  have hsubset : offsets.erase node.offset ⊆ consumed := by
    intro b hb
    obtain ⟨hne, hb⟩ := (hdistinct.mem_erase_iff).1 hb
    obtain ⟨a, ha, hrests⟩ := mem_rests_iff.1 hb
    rw [hsource, OffsetSet.mem_singleton] at ha
    subst ha
    rcases Relation.ReflTransGen.cases_tail hrests with rfl | ⟨c, hc, hstep⟩
    · exact absurd rfl hne
    · have hc : c ∈ graph.rests v :=
        mem_rests_iff.2 ⟨_, hsource ▸ OffsetSet.mem_singleton.2 rfl, hc⟩
      exact List.mem_flatMap.2 ⟨c, hc, hstep⟩
  have hperm : (offsets.erase node.offset).Perm consumed := by
    apply (List.subperm_of_subset (hdistinct.erase _) hsubset).perm_of_length_le
    rw [List.length_erase_of_mem hself]
    omega
  exact hperm.nodup_iff.1 (hdistinct.erase _)

end Graph

end StackLift
