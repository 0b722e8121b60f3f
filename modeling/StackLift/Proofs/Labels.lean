import StackLift.Proofs.Inlining

namespace StackLift

namespace Expression

mutual

/-- The offsets of the instructions and calls in an expression, the root first. -/
def labels : Expression → List UInt32
  | .instruction offset _ _ arguments => offset :: labelsOfAll arguments
  | .call offset _ _ arguments => offset :: labelsOfAll arguments
  | .read .. => []

def labelsOfAll : List Expression → List UInt32
  | [] => []
  | expression :: rest => labels expression ++ labelsOfAll rest

end

end Expression

def labelsOf (statements : List Statement) : List UInt32 :=
  statements.flatMap fun statement => statement.expression.labels

theorem Node.labels_toExpression (node : Node) (arguments : List Expression) :
    (node.toExpression arguments).labels =
      node.offset :: Expression.labelsOfAll arguments := by
  rw [toExpression]
  split <;> rw [Expression.labels]

namespace Outline

variable {o : Outline} {path : OffsetSet} {node : Node} {expression : Expression} {a : UInt32}

def inlinedAt? (o : Outline) (input : Provenance) : Option UInt32 :=
  match o.naming.variableRead? input with
  | some _ => none
  | none => o.inlinedProducer? input

theorem mem_of_inlinedAt? {input : Provenance} (h : o.inlinedAt? input = some a) :
    a ∈ o.inlined ∧ a ∈ input.sources := by
  rw [inlinedAt?] at h
  split at h
  · cases h
  · rw [inlinedProducer?] at h
    split at h
    · next hsources =>
      split at h
      · next hinlined =>
        cases h
        refine ⟨hinlined, ?_⟩
        rw [← OffsetSet.mem_toList, hsources]
        exact List.mem_singleton_self a
      · cases h
    · cases h

/-- How many arguments of the instruction at `reader` the producer at `a` is inlined into. -/
def takes (o : Outline) (a reader : UInt32) : Nat :=
  match o.graph.get? reader with
  | some node => node.argumentInputs.countP fun input => o.inlinedAt? input = some a
  | none => 0

theorem argument_cases {site : Site} {input : Provenance} {argument : Expression}
    (h : o.argument path site input = .ok argument) :
    (o.inlinedAt? input = none ∧ ∃ index, argument = .read index site) ∨
      ∃ producer, o.inlinedAt? input = some producer.offset ∧
        o.graph.get? producer.offset = some producer ∧
        o.expression path producer = .ok argument := by
  rw [Outline.argument] at h
  split at h
  · next index hread =>
    cases h
    exact .inl ⟨by rw [inlinedAt?, hread], index, rfl⟩
  · next hread =>
    split at h
    · cases h
    · next hinlined =>
      split at h
      · cases h
      · next producer hproducer =>
        obtain rfl := Graph.offset_of_get? hproducer
        exact .inr ⟨producer, by rw [inlinedAt?, hread, hinlined], hproducer, h⟩

theorem outside_of_expression (h : o.expression path node = .ok expression) :
    node.offset ∉ path := by
  intro hmem
  rw [Outline.expression, if_pos hmem] at h
  cases h

/-- Every label but those of `roots` came in through an argument slot. -/
def Enters (o : Outline) (a : UInt32) (roots labels : List UInt32) : Prop :=
  labels.count a = roots.count a + (labels.map (o.takes a)).sum

theorem Enters.append {roots roots' labels labels' : List UInt32} (h : o.Enters a roots labels)
    (h' : o.Enters a roots' labels') : o.Enters a (roots ++ roots') (labels ++ labels') := by
  rw [Enters] at h h' ⊢
  rw [List.count_append, List.count_append, List.map_append, List.sum_append, h, h']
  omega

theorem enters_arguments {offset : UInt32} {slot : Nat} {inputs : List Provenance}
    {arguments : List Expression} (h : o.arguments path offset slot inputs = .ok arguments)
    (hproducers : ∀ producer expression, o.graph.get? producer.offset = some producer →
      o.expression path producer = .ok expression →
      o.Enters a [producer.offset] expression.labels) :
    o.Enters a (inputs.filterMap o.inlinedAt?) (Expression.labelsOfAll arguments) := by
  induction inputs generalizing slot arguments with
  | nil =>
    rw [Outline.arguments] at h
    cases h
    rfl
  | cons input rest ih =>
    rw [Outline.arguments] at h
    obtain ⟨first, hfirst, h⟩ := bind_eq_ok.1 h
    obtain ⟨others, hothers, h⟩ := bind_eq_ok.1 h
    cases h
    rw [Expression.labelsOfAll]
    rcases argument_cases hfirst with ⟨hnone, index, rfl⟩ | ⟨producer, hsome, hproducer, hfirst⟩
    · rw [List.filterMap_cons_none hnone, Expression.labels, List.nil_append]
      exact ih hothers
    · rw [List.filterMap_cons_some hsome]
      exact (hproducers producer first hproducer hfirst).append (ih hothers)

theorem count_filterMap_inlinedAt? (o : Outline) (a : UInt32) (inputs : List Provenance) :
    (inputs.filterMap o.inlinedAt?).count a =
      inputs.countP fun input => o.inlinedAt? input = some a := by
  rw [List.count, List.countP_filterMap]
  congr 1
  funext input
  cases o.inlinedAt? input with
  | none => rfl
  | some producer => simp [beq_eq_decide]

theorem enters_expression (hnode : o.graph.get? node.offset = some node)
    (h : o.expression path node = .ok expression) :
    o.Enters a [node.offset] expression.labels := by
  -- The path has less room inside the arguments.
  induction hroom : UInt32.size - path.size using Nat.strongRecOn
    generalizing path node expression with
  | ind room ih =>
    have houtside := outside_of_expression h
    obtain ⟨arguments, harguments, rfl⟩ := expression_cases h
    have hlt : UInt32.size - (path.insert node.offset).size < room :=
      hroom ▸ OffsetSet.room_insert_lt houtside
    have hentered := enters_arguments (a := a) harguments
      fun producer expression hproducer hexpression => ih _ hlt hproducer hexpression rfl
    have htakes : o.takes a node.offset =
        node.argumentInputs.countP fun input => o.inlinedAt? input = some a := by
      rw [takes, hnode]
    rw [Enters, count_filterMap_inlinedAt?, ← htakes] at hentered
    rw [Node.labels_toExpression, Enters, List.count_cons, List.count_singleton, hentered,
      List.map_cons, List.sum_cons]
    omega

/-- A label of a listing is that of a statement, or comes in through an argument slot. -/
theorem enters_statements {offsets : List UInt32} {statements : List Statement}
    (h : o.statements offsets = .ok statements) :
    o.Enters a (offsets.filter (· ∉ o.inlined)) (labelsOf statements) := by
  induction offsets generalizing statements with
  | nil =>
    cases h
    rfl
  | cons offset rest ih =>
    rw [Outline.statements] at h
    split at h
    · cases h
    · next node hnode =>
      obtain rfl := Graph.offset_of_get? hnode
      split at h
      · next hinlined =>
        rw [List.filter_cons_of_neg (by simpa using hinlined)]
        exact ih h
      · next hinlined =>
        obtain ⟨expression, hexpression, h⟩ := bind_eq_ok.1 h
        obtain ⟨others, hothers, h⟩ := bind_eq_ok.1 h
        cases h
        rw [List.filter_cons_of_pos (by simpa using hinlined)]
        exact (enters_expression hnode hexpression).append (ih hothers)

end Outline

end StackLift
