import StackLift.Proofs.Building

namespace StackLift

/-- The parts of an expression: itself, and the parts' arguments. -/
inductive Expression.Part (whole : Expression) : Expression → Prop
  | whole : Part whole whole
  | argument {parent child : Expression} {slot : Nat} : Part whole parent →
      parent.arguments[slot]? = some child → Part whole child

namespace Expression

theorem arguments_eq_nil {e : Expression} (h : e.offset? = none) : e.arguments = [] := by
  cases e with
  | read => rfl
  | instruction => cases h
  | call => cases h

theorem Part.trans {a b c : Expression} (h : a.Part b) (h' : b.Part c) : a.Part c := by
  induction h' with
  | whole => exact h
  | argument _ hchild ih => exact ih.argument hchild

mutual

theorem exists_part_of_mem_labels {a : UInt32} :
    (e : Expression) → a ∈ e.labels → ∃ part, e.Part part ∧ part.offset? = some a
  | .instruction offset opcode operand arguments, h => by
    rw [labels] at h
    rcases List.mem_cons.1 h with rfl | h
    · exact ⟨_, .whole, rfl⟩
    · obtain ⟨slot, child, part, hchild, hpart, hoffset⟩ :=
        exists_part_of_mem_labelsOfAll arguments h
      exact ⟨part, (Part.whole.argument hchild).trans hpart, hoffset⟩
  | .call offset opcode service arguments, h => by
    rw [labels] at h
    rcases List.mem_cons.1 h with rfl | h
    · exact ⟨_, .whole, rfl⟩
    · obtain ⟨slot, child, part, hchild, hpart, hoffset⟩ :=
        exists_part_of_mem_labelsOfAll arguments h
      exact ⟨part, (Part.whole.argument hchild).trans hpart, hoffset⟩
  | .read index site, h => by
    rw [labels] at h
    cases h

theorem exists_part_of_mem_labelsOfAll {a : UInt32} :
    (l : List Expression) → a ∈ labelsOfAll l →
      ∃ (slot : Nat) (child part : Expression), l[slot]? = some child ∧ child.Part part ∧
        part.offset? = some a
  | [], h => by
    rw [labelsOfAll] at h
    cases h
  | first :: rest, h => by
    rw [labelsOfAll] at h
    rcases List.mem_append.1 h with h | h
    · obtain ⟨part, hpart, hoffset⟩ := exists_part_of_mem_labels first h
      exact ⟨0, first, part, rfl, hpart, hoffset⟩
    · obtain ⟨slot, child, part, hchild, hpart, hoffset⟩ := exists_part_of_mem_labelsOfAll rest h
      exact ⟨slot + 1, child, part, hchild, hpart, hoffset⟩

end

end Expression

theorem exists_slot_iff_of_linked {slots : List Slot} {stored : OffsetSet} {a b : UInt32}
    (h : Relation.EqvGen (Meet slots stored) a b) :
    (∃ slot ∈ slots, a ∈ slot.input.sources) ↔ ∃ slot ∈ slots, b ∈ slot.input.sources := by
  induction h with
  | refl => exact Iff.rfl
  | symm _ _ _ ih => exact ih.symm
  | trans _ _ _ _ _ hab hbc => exact hab.trans hbc
  | rel a b hmeet =>
    obtain ⟨slot, hslot, ha, hb⟩ := hmeet
    exact iff_of_true ⟨slot, hslot, (List.mem_filter.1 ha).1⟩
      ⟨slot, hslot, (List.mem_filter.1 hb).1⟩

def Listing.roots (listing : Listing) : List (Option UInt32) :=
  listing.statements.map fun statement => statement.expression.offset?

theorem Outline.roots_of_statements {o : Outline} {offsets : List UInt32}
    {statements : List Statement} (h : o.statements offsets = .ok statements) :
    statements.map (fun statement => statement.expression.offset?) =
      (offsets.filter (· ∉ o.inlined)).map some := by
  induction offsets generalizing statements with
  | nil =>
    cases h
    rfl
  | cons offset rest ih =>
    rw [Outline.statements] at h
    split at h
    · cases h
    · next node hnode =>
      split at h
      · next hinlined =>
        rw [List.filter_cons_of_neg (by simpa using hinlined)]
        exact ih h
      · next hinlined =>
        obtain ⟨expression, hexpression, h⟩ := bind_eq_ok.1 h
        obtain ⟨others, hothers, h⟩ := bind_eq_ok.1 h
        cases h
        obtain ⟨arguments, _, rfl⟩ := expression_cases hexpression
        rw [List.filter_cons_of_pos (by simpa using hinlined), List.map_cons, List.map_cons,
          ih hothers, Node.offset?_toExpression, Graph.offset_of_get? hnode]

namespace Graph

variable {graph : Graph} {start offset : UInt32}

def IsRead (graph : Graph) (offset : UInt32) : Prop :=
  ∃ slot ∈ graph.slots, offset ∈ slot.input.sources

theorem isRead_of_holder? {stored : OffsetSet} {index : Nat}
    (h : (graph.naming stored).holder? offset = some index) : graph.IsRead offset := by
  obtain ⟨k, introduction, hk, hroot, _⟩ := introduction_of_holder? h
  obtain ⟨_, before, slot, behind, hslots, hslot⟩ := introduces_of_mem (List.mem_of_getElem? hk)
  obtain ⟨first, hfirst, hfirstroot⟩ := hslot.root
  have hlinked := root_joinProducers_eq_iff.1 (hfirstroot.symm.trans hroot)
  have hmem : slot ∈ graph.slots := by
    rw [hslots]
    exact List.mem_append_right _ List.mem_cons_self
  exact (exists_slot_iff_of_linked hlinked).1 ⟨slot, hmem, (List.mem_filter.1 hfirst).1⟩

theorem isSome_holder?_iff (hget : graph.contains offset = true)
    (hinlined : offset ∉ graph.placement.inlined) :
    (graph.outline.naming.holder? offset).isSome ↔ graph.IsRead offset := by
  constructor
  · intro h
    obtain ⟨index, hindex⟩ := Option.isSome_iff_exists.1 h
    exact isRead_of_holder? hindex
  · rintro ⟨slot, hslot, hread⟩
    have hstored : offset ∈ graph.placement.stored := by
      by_contra hstored
      exact hinlined (mem_inlined_of_not_stored hslot hread hget hstored)
    exact Option.isSome_iff_exists.2
      (exists_holder? hslot (List.mem_filter.2 ⟨hread, decide_eq_true hstored⟩))

theorem argument_of_expression {node : Node} {path : OffsetSet} {parent child : Expression}
    {index : Nat} (hnode : graph.get? node.offset = some node)
    (h : graph.outline.expression path node = .ok parent)
    (hchild : parent.arguments[index]? = some child) :
    child.offset? = none ∨ ∃ input producer inside, node.argumentInputs[index]? = some input ∧
      graph.Inlines ⟨node, index, input⟩ producer.offset ∧
      graph.get? producer.offset = some producer ∧
      graph.outline.expression inside producer = .ok child := by
  obtain ⟨arguments, harguments, rfl⟩ := Outline.expression_cases h
  rw [Node.arguments_toExpression] at hchild
  obtain ⟨input, hinput, hargument⟩ := Outline.exists_input_of_arguments harguments hchild
  rcases Outline.argument_cases hargument with ⟨_, _, rfl⟩ | ⟨producer, hsome, hproducer, hexpr⟩
  · exact .inl rfl
  · obtain ⟨hinlined, hread⟩ := Outline.mem_of_inlinedAt? hsome
    have hslot : (⟨node, index, input⟩ : Slot) ∈ graph.slots :=
      mem_slots_iff.2 ⟨hnode, Node.inputs_of_argumentInputs hinput⟩
    exact .inr ⟨input, producer, _, hinput, inlines_of_read hinlined hslot hread, hproducer, hexpr⟩

/-- A part of what is listed is a read, or the expression of a listed instruction. -/
theorem part_cases {node : Node} {path : OffsetSet} {expression part : Expression}
    (hnode : graph.get? node.offset = some node)
    (hexpression : graph.outline.expression path node = .ok expression)
    (hlisted : graph.Listed start node.offset) (h : expression.Part part) :
    part.offset? = none ∨ ∃ inner inside, graph.get? inner.offset = some inner ∧
      graph.outline.expression inside inner = .ok part ∧ graph.Listed start inner.offset := by
  induction h with
  | whole => exact .inr ⟨node, path, hnode, hexpression, hlisted⟩
  | @argument parent child index _ hchild ih =>
    rcases ih with hnone | ⟨inner, inside, hinner, hparent, hlisted⟩
    · rw [Expression.arguments_eq_nil hnone] at hchild
      cases hchild
    · rcases argument_of_expression hinner hparent hchild with
        hnone | ⟨input, producer, further, hinput, hinlines, hproducer, hexpr⟩
      · exact .inl hnone
      · have htakes : graph.Takes producer.offset inner.offset :=
          ⟨_, hinlines, rfl, hinput⟩
        exact .inr ⟨producer, further, hproducer, hexpr, hlisted.taken htakes⟩

theorem offset?_of_expression {node : Node} {path : OffsetSet} {expression : Expression}
    (h : graph.outline.expression path node = .ok expression) :
    expression.offset? = some node.offset := by
  obtain ⟨arguments, _, rfl⟩ := Outline.expression_cases h
  exact Node.offset?_toExpression node arguments

section

variable {listing : Listing} (hbuild : (graph.build start).outcome = .ok listing)
include hbuild

theorem count_roots (offset : UInt32) : listing.roots.count (some offset) =
    ((graph.walk start).filter (· ∉ graph.placement.inlined)).count offset := by
  rw [Listing.roots, Outline.roots_of_statements (statements_of_build hbuild)]
  exact List.count_map_of_injective _ _ (Option.some_injective _) offset

theorem of_mem_statements {statement : Statement} (h : statement ∈ listing.statements) :
    ∃ node, graph.get? node.offset = some node ∧ graph.Leads start node.offset ∧
      ¬graph.Inlinable node.offset ∧
      graph.outline.expression .empty node = .ok statement.expression ∧
      statement.target = graph.outline.naming.holder? node.offset := by
  obtain ⟨offset, hoffset, node, expression, hnode, hexpression, rfl⟩ :=
    Outline.exists_of_mem_statements (statements_of_build hbuild) h
  obtain rfl := offset_of_get? hnode
  have hroot : some node.offset ∈ listing.roots :=
    List.mem_map.2 ⟨_, h, offset?_of_expression hexpression⟩
  rw [← List.count_pos_iff, count_roots hbuild, List.count_pos_iff, List.mem_filter,
    decide_eq_true_eq, mem_inlined_iff_inlinable] at hroot
  exact ⟨node, hnode, mem_walk_iff.1 hoffset, hroot.2, hexpression, rfl⟩

theorem part_of_statement {statement : Statement} (h : statement ∈ listing.statements)
    {part : Expression} (hpart : statement.expression.Part part) :
    part.offset? = none ∨ ∃ inner inside, graph.get? inner.offset = some inner ∧
      graph.outline.expression inside inner = .ok part ∧ graph.Listed start inner.offset := by
  obtain ⟨node, hnode, hleads, hinlinable, hexpression, _⟩ := of_mem_statements hbuild h
  exact part_cases hnode hexpression (.met hleads hinlinable) hpart

theorem listed_of_mem_labelsOf (h : offset ∈ labelsOf listing.statements) :
    graph.Listed start offset := by
  obtain ⟨statement, hstatement, h⟩ := List.mem_flatMap.1 h
  obtain ⟨part, hpart, hoffset⟩ := Expression.exists_part_of_mem_labels statement.expression h
  rcases part_of_statement hbuild hstatement hpart with hnone | ⟨inner, inside, _, hexpr, hlisted⟩
  · rw [hoffset] at hnone
    cases hnone
  · rw [offset?_of_expression hexpr, Option.some.injEq] at hoffset
    exact hoffset ▸ hlisted

/-- What is inlined enters with its reader, so it is listed no more often. -/
theorem count_le_one (h : graph.Listed start offset) :
    (labelsOf listing.statements).count offset ≤ 1 := by
  have henters : ∀ a, graph.outline.Enters a ((graph.walk start).filter
      (· ∉ graph.placement.inlined)) (labelsOf listing.statements) :=
    fun _ => Outline.enters_statements (statements_of_build hbuild)
  induction h with
  | @met offset _ hinlinable =>
    rw [count_of_not_inlined (fun h => hinlinable (mem_inlined_iff_inlinable.1 h)) (henters offset)]
    exact List.nodup_iff_count_le_one.1 (graph.nodup_walkFrom _ _).1 offset
  | @taken offset reader _ htakes ih =>
    obtain ⟨slot, hinlines, rfl, _⟩ := htakes
    rw [count_of_inlined hinlines.mem_inlined hinlines.mem hinlines.read (henters offset)]
    split
    · exact ih
    · exact Nat.zero_le _

theorem nodup_labelsOf : (labelsOf listing.statements).Nodup := by
  rw [List.nodup_iff_count_le_one]
  intro a
  by_cases ha : a ∈ labelsOf listing.statements
  · exact count_le_one hbuild (listed_of_mem_labelsOf hbuild ha)
  · rw [List.count_eq_zero.2 ha]
    exact Nat.zero_le 1

/-- Where the instructions of a listing stand. Each offset that control flow leads to is the root of
one statement, or of none if it is inlinable; this statement assigns exactly if some slot reads the
offset. What is inlinable stands in the listing only as the argument at the one slot that reads it,
and no offset labels two nodes. -/
theorem statements_of_build_place :
    (∀ offset, graph.Leads start offset →
      (¬graph.Inlinable offset → listing.roots.count (some offset) = 1) ∧
      (graph.Inlinable offset → listing.roots.count (some offset) = 0)) ∧
    (∀ statement ∈ listing.statements, ∀ offset, statement.expression.offset? = some offset →
      (statement.target.isSome ↔ graph.IsRead offset)) ∧
    (∀ slot offset, graph.Inlines slot offset → ∀ statement ∈ listing.statements,
      statement.expression.offset? ≠ some offset ∧
      ∀ parent child index, statement.expression.Part parent →
        parent.arguments[index]? = some child → child.offset? = some offset →
        parent.offset? = some slot.reader.offset ∧ index = slot.index) ∧
    (labelsOf listing.statements).Nodup := by
  refine ⟨?_, ?_, ?_, nodup_labelsOf hbuild⟩
  · intro offset hleads
    rw [count_roots hbuild, ← mem_inlined_iff_inlinable]
    constructor
    · intro hinlined
      rw [List.count_filter (by simpa using hinlined)]
      exact List.count_eq_one_of_mem (graph.nodup_walkFrom _ _).1 (mem_walk_iff.2 hleads)
    · intro hinlined
      rw [List.count_eq_zero, List.mem_filter, decide_eq_true_eq]
      exact fun h => h.2 hinlined
  · intro statement hstatement offset hroot
    obtain ⟨node, hnode, _, hinlinable, hexpression, htarget⟩ := of_mem_statements hbuild hstatement
    rw [offset?_of_expression hexpression, Option.some.injEq] at hroot
    rw [htarget, ← hroot]
    exact isSome_holder?_iff (contains_iff.2 ⟨node, hnode⟩)
      fun hinlined => hinlinable (mem_inlined_iff_inlinable.1 hinlined)
  · intro slot offset hinlines statement hstatement
    constructor
    · intro hroot
      obtain ⟨node, _, _, hinlinable, hexpression, _⟩ := of_mem_statements hbuild hstatement
      rw [offset?_of_expression hexpression, Option.some.injEq] at hroot
      exact hinlinable (hroot ▸ ⟨slot, hinlines⟩)
    · intro parent child index hparent hchild hoffset
      rcases part_of_statement hbuild hstatement hparent with
        hnone | ⟨inner, inside, hinner, hexpr, _⟩
      · rw [Expression.arguments_eq_nil hnone] at hchild
        cases hchild
      · rcases argument_of_expression hinner hexpr hchild with
          hnone | ⟨input, producer, _, _, hproducer, _, hexpression⟩
        · rw [hoffset] at hnone
          cases hnone
        · rw [offset?_of_expression hexpression, Option.some.injEq] at hoffset
          have hslot := hinlines.only _ (hoffset ▸ hproducer).mem (hoffset ▸ hproducer.read)
          rw [← hslot]
          exact ⟨offset?_of_expression hexpr, rfl⟩

end

end Graph

namespace Discovery

/-- In the listing from 17 the sum at 10 stands in the call at 16, which is a statement. -/
theorem boxing_statements_place :
    ∃ graph listing, (boxing.discover [⟨0, 0⟩]).outcome = .ok graph ∧
      (graph.build 17).outcome = .ok listing ∧ graph.Inlinable 10 ∧
      listing.roots.count (some 10) = 0 ∧ listing.roots.count (some 16) = 1 ∧
      (labelsOf listing.statements).Nodup := by
  have hrun : (boxing.discoverWithin 40 [⟨0, 0⟩]).map (fun outcome => outcome.map fun graph =>
      (graph.contains 17, graph.walk 17, graph.placement.inlined.toList)) =
      some (.ok (true, [17, 19, 24, 0, 5, 10, 11, 16], [0, 5, 10, 11])) := by cbv
  obtain ⟨graph, hgraph, hfacts⟩ := exists_discovered _ hrun
  simp only [Prod.mk.injEq] at hfacts
  obtain ⟨hstart, hwalk, hinlined⟩ := hfacts
  obtain ⟨listing, hbuild⟩ := (passes_of_discover hgraph).build_ok hstart
  obtain ⟨hroots, _, _, hnodup⟩ := Graph.statements_of_build_place hbuild
  have hsum : graph.Leads 17 10 := Graph.mem_walk_iff.1 (hwalk ▸ by decide)
  have hcall : graph.Leads 17 16 := Graph.mem_walk_iff.1 (hwalk ▸ by decide)
  have hinlinable : ∀ offset, graph.Inlinable offset ↔ offset ∈ [0, 5, 10, 11] := by
    intro offset
    rw [← Graph.mem_inlined_iff_inlinable, ← OffsetSet.mem_toList, hinlined]
  have hsum' : graph.Inlinable 10 := (hinlinable 10).2 (by decide)
  have hcall' : ¬graph.Inlinable 16 := fun h => absurd ((hinlinable 16).1 h) (by decide)
  exact ⟨graph, listing, hgraph, hbuild, hsum', (hroots 10 hsum).2 hsum',
    (hroots 16 hcall).1 hcall', hnodup⟩

end Discovery

end StackLift
