import StackLift.Proofs.Evaluation
import StackLift.Proofs.Labels

namespace StackLift

namespace Graph

structure Direct (graph : Graph) : Prop where
  producer : ∀ slot ∈ graph.slots, ∃ producer, graph.get? producer.offset = some producer ∧
    slot.input.sources.toList = [producer.offset] ∧ producer.opcode.pushes ≠ .none
  roomy : graph.Roomy

variable {graph : Graph} {a b : UInt32} {node : Node}

theorem Direct.bound (h : graph.Direct) : graph.Bound := by
  intro slot hslot
  obtain ⟨producer, hproducer, hsources, _⟩ := h.producer slot hslot
  refine ⟨producer.offset, ?_, contains_iff.2 ⟨producer, hproducer⟩⟩
  rw [← OffsetSet.mem_toList, hsources]
  exact List.mem_singleton_self _

theorem Direct.eq_of_linked (h : graph.Direct) (hlinked : graph.Linked a b) : a = b := by
  induction hlinked with
  | refl => rfl
  | symm _ _ _ ih => exact ih.symm
  | trans _ _ _ _ _ hab hbc => exact hab.trans hbc
  | rel a b hmeet =>
    obtain ⟨slot, hslot, ha, hb⟩ := hmeet
    obtain ⟨producer, _, hsources, _⟩ := h.producer slot hslot
    rw [Slot.storedProducers, hsources] at ha hb
    rw [List.mem_singleton.1 (List.mem_of_mem_filter ha),
      List.mem_singleton.1 (List.mem_of_mem_filter hb)]

theorem Direct.not_placed (h : graph.Direct) (hnode : graph.get? a = some node)
    (hpushes : node.opcode.pushes = .none) :
    a ∉ graph.placement.stored ∧ a ∉ graph.placement.inlined := by
  have hreads : readsOf graph.slots a = [] := by
    rw [List.eq_nil_iff_forall_not_mem]
    intro slot hread
    obtain ⟨hslot, ha⟩ := mem_readsOf.1 hread
    obtain ⟨producer, hproducer, hsources, hpushed⟩ := h.producer slot hslot
    rw [← OffsetSet.mem_toList, hsources, List.mem_singleton] at ha
    rw [ha, hproducer] at hnode
    cases hnode
    exact hpushed hpushes
  have hsnapshot : node.snapshotsRegister = false := by
    rw [Instruction.snapshotsRegister]
    split
    · simp [hpushes]
    · rfl
  have hstore : node.mustStore (readsOf graph.slots a) = false := by
    simp [Node.mustStore, hreads, hsnapshot]
  constructor
  · intro hstored
    obtain ⟨other, hother, hstores⟩ := mem_stored_iff.1 hstored
    rw [hnode] at hother
    cases hother
    rw [hstore] at hstores
    cases hstores
  · intro hinlined
    obtain ⟨other, hother, hinline⟩ := mem_inlined_iff.1 hinlined
    rw [Node.isInlined, hreads] at hinline
    simp at hinline

theorem not_snapshots_of_inlined (hnode : graph.get? a = some node)
    (h : a ∈ graph.placement.inlined) : node.snapshotsRegister = false := by
  obtain ⟨other, hother, hinline⟩ := mem_inlined_iff.1 h
  rw [hnode] at hother
  cases hother
  simp only [Node.isInlined, Node.mustStore, Bool.and_eq_true, Bool.not_eq_true',
    Bool.or_eq_false_iff] at hinline
  exact hinline.1.1.2

theorem holder?_eq_none (h : a ∉ graph.placement.stored) :
    graph.outline.naming.holder? a = none := by
  cases hholder : graph.outline.naming.holder? a with
  | none => rfl
  | some index => exact absurd (mem_stored_of_holder? hholder) h

end Graph

namespace Environment

variable {env next : Environment} {target : Option Nat} {word : UInt64}

/-- The variable has the word now, if there is one, and only the instruction pointer has moved. -/
structure Gains (next env : Environment) (target : Option Nat) (word : UInt64) : Prop where
  store : ∀ index, next.store index = if target = some index then some word else env.store index
  registers : ∀ r, r ≠ .ip → next.registers.get r = env.registers.get r

theorem Gains.extends (h : next.Gains env target word)
    (hnew : ∀ index, target = some index → env.store index = none) : next.Extends env.store := by
  intro index word hword
  rw [h.store, if_neg]
  · exact hword
  · intro htarget
    rw [hnew index htarget] at hword
    cases hword

end Environment

/-- The instruction makes the word of those that it takes, wherever it is executed; if it takes a
snapshot of a register, where the registers are as in the environment. -/
def Instruction.Makes (i : Instruction) (env : Environment) (words : List UInt64) (word : UInt64) :
    Prop :=
  ∀ now : Environment, (i.snapshotsRegister = true → now.Keeps env) →
    ∃ after, now.execute i words = .ok (some word, after) ∧ after.Keeps now

namespace Outline

variable {o : Outline} {store : Nat → Option UInt64} {word : UInt64} {words : List UInt64}
  {env next : Environment} {node : Node} {path : OffsetSet} {e : Expression}

theorem gives_producedBy
    (hstored : ∀ index, o.naming.holder? node.offset = some index → store index = some word)
    (hinlined : node.offset ∈ o.inlined →
      ∀ path e, o.expression path node = .ok e → e.Yields store word)
    (hnode : o.graph.get? node.offset = some node) (kind : ValueKind) :
    o.Gives store (.producedBy node.offset kind) word := by
  intro path site e he
  rcases argument_cases he with ⟨_, index, rfl⟩ | ⟨producer, hproducer, hget, hexpression⟩
  · obtain ⟨a, ha, hholder⟩ := Naming.exists_holder_of_variableRead? (argument_eq_read he)
    rw [Provenance.producedBy, OffsetSet.mem_singleton] at ha
    rw [ha] at hholder
    exact Expression.yields_read (hstored index hholder) site
  · obtain ⟨hmem, ha⟩ := mem_of_inlinedAt? hproducer
    rw [Provenance.producedBy, OffsetSet.mem_singleton] at ha
    rw [ha] at hmem hget
    rw [hnode] at hget
    cases hget
    exact hinlined hmem path e hexpression

theorem yields_expression (hnode : node.Bare) (hsnapshot : node.snapshotsRegister = false)
    (hgives : List.Forall₂ (o.Gives store) node.inputs words)
    (hmakes : node.Makes env words word) (h : o.expression path node = .ok e) :
    e.Yields store word := by
  intro now hnow
  obtain ⟨ready, hready, hevaluate⟩ := evaluate_expression hnode h hgives hnow
  obtain ⟨after, hafter, hkeeps⟩ := hmakes ready fun hsnapshots => by
    rw [hsnapshot] at hsnapshots
    cases hsnapshots
  exact ⟨after, hevaluate.trans hafter, hkeeps.trans hready⟩

inductive Advances (o : Outline) (node : Node) (env : Environment) : Environment → Prop
  | inlined : node.offset ∈ o.inlined → Advances o node env env
  | stated {e : Expression} {next : Environment} : node.offset ∉ o.inlined →
      o.expression .empty node = .ok e →
      Statement.evaluate ⟨o.naming.holder? node.offset, e⟩ env = .ok next → Advances o node env next

theorem Advances.run_statements (h : o.Advances node env next) (hnode : node.Bare)
    (hflow : node.opcode.flow = .next) (hget : o.graph.get? node.offset = some node)
    {rest : List UInt32} {statements : List Statement}
    (hstatements : o.statements (node.offset :: rest) = .ok statements) :
    ∃ others, o.statements rest = .ok others ∧ env.run statements = next.run others := by
  rw [Outline.statements, hget] at hstatements
  cases h with
  | inlined hinlined =>
    simp only [if_pos hinlined] at hstatements
    exact ⟨statements, hstatements, rfl⟩
  | @stated e _ hinlined hexpression hevaluate =>
    simp only [if_neg hinlined] at hstatements
    obtain ⟨e', he', hstatements⟩ := bind_eq_ok.1 hstatements
    obtain ⟨others, hothers, hstatements⟩ := bind_eq_ok.1 hstatements
    rw [hexpression] at he'
    cases he'
    cases hstatements
    have hleaves : e.leaves = false := by
      rw [leaves_expression hnode hexpression, hflow]
      rfl
    refine ⟨others, hothers, ?_⟩
    rw [Environment.run, if_neg (Bool.not_eq_true _ ▸ hleaves), hevaluate]
    rfl

end Outline

namespace Graph

variable {graph : Graph} {node : Node} {env : Environment} {words : List UInt64} {word : UInt64}

theorem advances_of_makes (hdirect : graph.Direct) (hget : graph.get? node.offset = some node)
    (hnode : node.Bare) (hgives : List.Forall₂ (graph.outline.Gives env.store) node.inputs words)
    (hmakes : node.Makes env words word) :
    ∃ next, graph.outline.Advances node env next ∧
      next.Gains env (graph.outline.naming.holder? node.offset) word := by
  by_cases hinlined : node.offset ∈ graph.placement.inlined
  · have hholder := holder?_eq_none fun hstored => not_mem_inlined_of_stored hstored hinlined
    refine ⟨env, .inlined hinlined, ?_, fun _ _ => rfl⟩
    intro index
    rw [hholder, if_neg (Option.some_ne_none index).symm]
  · obtain ⟨e, he⟩ := expression_ok hdirect.bound hdirect.roomy hget (enclosed_root hinlined)
    obtain ⟨ready, hready, hevaluate⟩ :=
      Outline.evaluate_expression hnode he hgives fun _ _ hstored => hstored
    obtain ⟨after, hafter, hkeeps⟩ := hmakes ready fun _ => hready
    obtain ⟨next, hassign, hregisters, hstore⟩ :=
      after.exists_assign (graph.outline.naming.holder? node.offset) word
    have hkept := hkeeps.trans hready
    refine ⟨next, .stated hinlined he ?_, ?_, ?_⟩
    · rw [Statement.evaluate, hevaluate, hafter]
      exact hassign
    · rw [← hkept.store]
      exact hstore
    · rw [hregisters]
      exact hkept.registers

/-- An instruction that pushes nothing has its statement, which is assigned to no variable. -/
theorem advances_of_execute (hdirect : graph.Direct) (hget : graph.get? node.offset = some node)
    (hnode : node.Bare) (hpushes : node.opcode.pushes = .none)
    (hgives : List.Forall₂ (graph.outline.Gives env.store) node.inputs words)
    {next : Environment → Environment}
    (hexecute : ∀ ready : Environment, ready.execute node.toInstruction words =
      .ok (none, next ready)) :
    ∃ ready : Environment, ready.Keeps env ∧ graph.outline.Advances node env (next ready) := by
  obtain ⟨hstored, hinlined⟩ := hdirect.not_placed hget hpushes
  obtain ⟨e, he⟩ := expression_ok hdirect.bound hdirect.roomy hget (enclosed_root hinlined)
  obtain ⟨ready, hready, hevaluate⟩ :=
    Outline.evaluate_expression hnode he hgives fun _ _ hstored => hstored
  refine ⟨ready, hready, .stated hinlined he ?_⟩
  rw [holder?_eq_none hstored, Statement.evaluate, hevaluate, hexecute]
  rfl

end Graph

end StackLift
