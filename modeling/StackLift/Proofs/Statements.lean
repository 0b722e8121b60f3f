import StackLift.Proofs.Holders
import StackLift.Proofs.Paths
import StackLift.Proofs.Recorders

namespace StackLift

namespace Graph

variable {graph : Graph}

theorem mem_walkFrom (graph : Graph) (pending : List UInt32) (seen : OffsetSet) :
    (∀ a ∈ pending, a ∈ seen ∨ a ∈ graph.walkFrom pending seen) ∧
      ∀ a ∈ graph.walkFrom pending seen, ∀ t ∈ graph.successors a,
        t ∈ seen ∨ t ∈ graph.walkFrom pending seen := by
  fun_induction graph.walkFrom pending seen with
  | case1 => exact ⟨fun _ ha => (nomatch ha), fun _ ha => (nomatch ha)⟩
  | case2 seen offset rest hseen ih =>
    refine ⟨?_, ih.2⟩
    intro a ha
    rcases List.mem_cons.1 ha with rfl | ha
    · exact .inl hseen
    · exact ih.1 a ha
  | case3 seen offset rest hseen ih =>
    have hmet : ∀ a, a ∈ seen.insert offset ∨
        a ∈ graph.walkFrom (graph.ahead offset (seen.insert offset) ++ rest) (seen.insert offset) →
        a ∈ seen ∨ a ∈ offset :: graph.walkFrom (graph.ahead offset (seen.insert offset) ++ rest)
          (seen.insert offset) := by
      intro a ha
      rcases ha with ha | ha
      · rcases OffsetSet.mem_insert.1 ha with rfl | ha
        · exact .inr List.mem_cons_self
        · exact .inl ha
      · exact .inr (List.mem_cons_of_mem _ ha)
    constructor
    · intro a ha
      rcases List.mem_cons.1 ha with rfl | ha
      · exact .inr List.mem_cons_self
      · exact hmet a (ih.1 a (List.mem_append_right _ ha))
    · intro a ha t ht
      apply hmet t
      rcases List.mem_cons.1 ha with rfl | ha
      · by_cases hmem : t ∈ seen.insert a
        · exact .inl hmem
        · exact ih.1 t (List.mem_append_left _ (mem_ahead.2 ⟨ht, hmem⟩))
      · exact ih.2 a ha t ht

theorem nodup_walkFrom (graph : Graph) (pending : List UInt32) (seen : OffsetSet) :
    (graph.walkFrom pending seen).Nodup ∧ ∀ a ∈ graph.walkFrom pending seen, a ∉ seen := by
  fun_induction graph.walkFrom pending seen with
  | case1 => exact ⟨List.nodup_nil, fun _ ha => absurd ha List.not_mem_nil⟩
  | case2 _ _ _ _ ih => exact ih
  | case3 seen offset rest hseen ih =>
    obtain ⟨hnodup, hfresh⟩ := ih
    refine ⟨List.nodup_cons.2 ⟨?_, hnodup⟩, ?_⟩
    · exact fun hmem => hfresh offset hmem (OffsetSet.mem_insert.2 (.inl rfl))
    · intro a ha hmem
      rcases List.mem_cons.1 ha with rfl | ha
      · exact hseen hmem
      · exact hfresh a ha (OffsetSet.mem_insert.2 (.inr hmem))

theorem forall_mem_walkFrom {P : UInt32 → Prop} {pending : List UInt32} {seen : OffsetSet}
    (hpending : ∀ a ∈ pending, P a) (hclosed : ∀ a, P a → ∀ t ∈ graph.successors a, P t) :
    ∀ a ∈ graph.walkFrom pending seen, P a := by
  fun_induction graph.walkFrom pending seen with
  | case1 => exact fun _ ha => absurd ha List.not_mem_nil
  | case2 seen offset rest _ ih => exact ih fun a ha => hpending a (List.mem_cons_of_mem _ ha)
  | case3 seen offset rest _ ih =>
    intro a ha
    rcases List.mem_cons.1 ha with rfl | ha
    · exact hpending a List.mem_cons_self
    · apply ih ?_ a ha
      intro b hb
      rcases List.mem_append.1 hb with hb | hb
      · exact hclosed offset (hpending offset List.mem_cons_self) b (mem_ahead.1 hb).1
      · exact hpending b (List.mem_cons_of_mem _ hb)

theorem Path.mem_walk {start : UInt32} {path : List UInt32} (h : graph.Path start path) :
    ∀ offset ∈ path, offset ∈ graph.walk start := by
  obtain ⟨hstart, hclosed⟩ := graph.mem_walkFrom [start] .empty
  induction h with
  | start =>
    intro offset hoffset
    rw [List.mem_singleton.1 hoffset]
    exact (hstart start List.mem_cons_self).resolve_left (OffsetSet.not_mem_empty _)
  | @step t last earlier _ ht ih =>
    intro offset hoffset
    rcases List.mem_cons.1 hoffset with rfl | hoffset
    · have hlast : last ∈ graph.walk start := ih last List.mem_cons_self
      exact (hclosed last hlast offset ht).resolve_left (OffsetSet.not_mem_empty _)
    · exact ih offset hoffset

end Graph

def Expression.arguments : Expression → List Expression
  | .instruction _ _ _ arguments => arguments
  | .call _ _ _ arguments => arguments
  | .read .. => []

namespace Node

theorem offset?_toExpression (node : Node) (arguments : List Expression) :
    (node.toExpression arguments).offset? = some node.offset := by
  rw [toExpression]
  split <;> rfl

theorem arguments_toExpression (node : Node) (arguments : List Expression) :
    (node.toExpression arguments).arguments = arguments := by
  rw [toExpression]
  split <;> rfl

theorem toExpression_ne_read (node : Node) (arguments : List Expression) (index : Nat)
    (site : Site) : node.toExpression arguments ≠ .read index site := by
  intro h
  have hoffset := congrArg Expression.offset? h
  rw [offset?_toExpression] at hoffset
  cases hoffset

theorem inputs_of_argumentInputs {node : Node} {slot : Nat} {input : Provenance}
    (h : node.argumentInputs[slot]? = some input) : node.inputs[slot]? = some input := by
  rw [argumentInputs, List.getElem?_take] at h
  split at h
  · exact h
  · cases h

end Node

theorem Naming.exists_holder_of_variableRead? {naming : Naming} {input : Provenance} {index : Nat}
    (h : naming.variableRead? input = some index) :
    ∃ a ∈ input.sources, naming.holder? a = some index :=
  List.exists_of_findSome?_eq_some h

namespace Outline

variable {o : Outline} {path : OffsetSet} {node : Node} {expression : Expression}

theorem expression_cases (h : o.expression path node = .ok expression) :
    ∃ arguments, o.arguments (path.insert node.offset) node.offset 0 node.argumentInputs =
      .ok arguments ∧ expression = node.toExpression arguments := by
  rw [Outline.expression] at h
  split at h
  · cases h
  · obtain ⟨_, _, h⟩ := bind_eq_ok.1 h
    obtain ⟨arguments, harguments, h⟩ := bind_eq_ok.1 h
    cases h
    exact ⟨arguments, harguments, rfl⟩

theorem reservable_of_expression (h : o.expression path node = .ok expression) :
    Reservable node.argumentCount Expression.byteSize := by
  rw [Outline.expression] at h
  split at h
  · cases h
  · by_contra hroom
    rw [reserve_bind_of_not hroom] at h
    cases h

theorem argument_eq_read {site site' : Site} {input : Provenance} {index : Nat}
    (h : o.argument path site input = .ok (.read index site')) :
    o.naming.variableRead? input = some index := by
  rw [argument] at h
  split at h
  · next hread =>
    cases h
    exact hread
  · split at h
    · cases h
    · split at h
      · cases h
      · obtain ⟨arguments, _, hread⟩ := expression_cases h
        exact absurd hread.symm (Node.toExpression_ne_read _ _ _ _)

theorem exists_input_of_arguments {offset : UInt32} {slot : Nat} {inputs : List Provenance}
    {arguments : List Expression} (h : o.arguments path offset slot inputs = .ok arguments)
    {k : Nat} {argument : Expression} (hk : arguments[k]? = some argument) :
    ∃ input, inputs[k]? = some input ∧
      o.argument path ⟨offset, slot + k⟩ input = .ok argument := by
  induction inputs generalizing slot arguments k with
  | nil =>
    rw [Outline.arguments] at h
    cases h
    cases hk
  | cons input rest ih =>
    rw [Outline.arguments] at h
    obtain ⟨first, hfirst, h⟩ := bind_eq_ok.1 h
    obtain ⟨others, hothers, h⟩ := bind_eq_ok.1 h
    cases h
    cases k with
    | zero =>
      cases hk
      exact ⟨input, rfl, hfirst⟩
    | succ k =>
      obtain ⟨other, hother, hargument⟩ := ih hothers hk
      rw [Nat.add_assoc, Nat.add_comm 1 k] at hargument
      exact ⟨other, hother, hargument⟩

theorem exists_of_mem_statements {offsets : List UInt32} {statements : List Statement}
    (h : o.statements offsets = .ok statements) {statement : Statement}
    (hmem : statement ∈ statements) :
    ∃ offset ∈ offsets, ∃ node expression, o.graph.get? offset = some node ∧
      o.expression .empty node = .ok expression ∧
      statement = ⟨o.naming.holder? offset, expression⟩ := by
  induction offsets generalizing statements with
  | nil =>
    cases h
    cases hmem
  | cons offset rest ih =>
    have hrest : ∀ {others}, o.statements rest = .ok others → statement ∈ others →
        ∃ other ∈ offset :: rest, ∃ node expression, o.graph.get? other = some node ∧
          o.expression .empty node = .ok expression ∧
          statement = ⟨o.naming.holder? other, expression⟩ := by
      intro others hothers hmem
      obtain ⟨other, hother, hstatement⟩ := ih hothers hmem
      exact ⟨other, List.mem_cons_of_mem _ hother, hstatement⟩
    rw [Outline.statements] at h
    split at h
    · cases h
    · next node hnode =>
      split at h
      · exact hrest h hmem
      · obtain ⟨expression, hexpression, h⟩ := bind_eq_ok.1 h
        obtain ⟨others, hothers, h⟩ := bind_eq_ok.1 h
        cases h
        rcases List.mem_cons.1 hmem with rfl | hmem
        · exact ⟨offset, List.mem_cons_self, node, expression, hnode, hexpression, rfl⟩
        · exact hrest hothers hmem

theorem exists_statement {offsets : List UInt32} {statements : List Statement}
    (h : o.statements offsets = .ok statements) {offset : UInt32} (hmem : offset ∈ offsets)
    (hinlined : offset ∉ o.inlined) :
    ∃ node expression, o.graph.get? offset = some node ∧
      o.expression .empty node = .ok expression ∧
      ⟨o.naming.holder? offset, expression⟩ ∈ statements := by
  induction offsets generalizing statements with
  | nil => cases hmem
  | cons first rest ih =>
    rw [Outline.statements] at h
    split at h
    · cases h
    · next node hnode =>
      split at h
      · next hfirst =>
        rcases List.mem_cons.1 hmem with rfl | hmem
        · exact absurd hfirst hinlined
        · exact ih h hmem
      · obtain ⟨expression, hexpression, h⟩ := bind_eq_ok.1 h
        obtain ⟨others, hothers, h⟩ := bind_eq_ok.1 h
        cases h
        rcases List.mem_cons.1 hmem with rfl | hmem
        · exact ⟨node, expression, hnode, hexpression, List.mem_cons_self⟩
        · obtain ⟨node', expression', hnode', hexpression', hstatement⟩ := ih hothers hmem
          exact ⟨node', expression', hnode', hexpression', List.mem_cons_of_mem _ hstatement⟩

end Outline

namespace Graph

variable {graph : Graph} {start : UInt32} {listing : Listing}

theorem listingFrom_of_build (h : (graph.build start).outcome = .ok listing) :
    graph.listingFrom start = .ok listing := by
  obtain ⟨_, _, h⟩ := Traced.outcome_bind_eq_ok.1 h
  obtain ⟨built, hbuilt, h⟩ := Traced.outcome_bind_eq_ok.1 h
  cases h
  exact hbuilt

theorem of_listingFrom (h : graph.listingFrom start = .ok listing) :
    graph.outline.statements (graph.walk start) = .ok listing.statements ∧
      listing.table = graph.outline.naming.table.addReaders (readsIn listing.statements) := by
  rw [listingFrom_eq] at h
  cases hstatements : graph.outline.statements (graph.walk start) with
  | error fault =>
    rw [hstatements] at h
    cases h
  | ok statements =>
    rw [hstatements] at h
    cases h
    exact ⟨rfl, rfl⟩

theorem statements_of_build (h : (graph.build start).outcome = .ok listing) :
    graph.outline.statements (graph.walk start) = .ok listing.statements :=
  (of_listingFrom (listingFrom_of_build h)).1

end Graph

end StackLift
