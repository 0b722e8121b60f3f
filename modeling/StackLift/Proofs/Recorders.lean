import StackLift.Listing.Build
import StackLift.Proofs.Visits

namespace StackLift

theorem mem_insertSite {a site : Site} {sites : List Site} :
    a ∈ insertSite site sites ↔ a = site ∨ a ∈ sites := by
  induction sites with
  | nil => simp [insertSite]
  | cons other rest ih =>
    rw [insertSite]
    split
    · exact List.mem_cons
    · split
      · next heq => simp [heq]
      · rw [List.mem_cons, ih, List.mem_cons]
        exact or_left_comm

namespace VariableTable

def addReaders (table : VariableTable) (reads : List (Nat × Site)) : VariableTable :=
  reads.foldl (fun table read => table.addReader read.1 read.2) table

theorem addReaders_append (table : VariableTable) (first rest : List (Nat × Site)) :
    table.addReaders (first ++ rest) = (table.addReaders first).addReaders rest :=
  List.foldl_append

theorem size_addReaders (table : VariableTable) (reads : List (Nat × Site)) :
    (table.addReaders reads).size = table.size := by
  induction reads generalizing table with
  | nil => rfl
  | cons read rest ih => exact (ih _).trans (List.length_modify ..)

theorem get?_addReader (table : VariableTable) (index : Nat) (site : Site) (other : Nat) :
    (table.addReader index site).get? other = (table.get? other).map fun v =>
      if index = other then { v with readers := insertSite site v.readers } else v := by
  rw [get?, addReader, List.getElem?_modify]
  rfl

theorem exists_readers {table : VariableTable} {index : Nat} {v : Variable}
    (h : table.get? index = some v) (reads : List (Nat × Site)) :
    ∃ readers, (table.addReaders reads).get? index = some { v with readers := readers } ∧
      ∀ site, site ∈ readers ↔ site ∈ v.readers ∨ (index, site) ∈ reads := by
  induction reads generalizing table v with
  | nil => exact ⟨v.readers, h, fun site => by simp⟩
  | cons read rest ih =>
    have hfirst := table.get?_addReader read.1 read.2 index
    rw [h, Option.map_some] at hfirst
    split at hfirst
    · next heq =>
      obtain ⟨readers, hget, hmem⟩ := ih hfirst
      refine ⟨readers, hget, fun site => ?_⟩
      rw [hmem, mem_insertSite, List.mem_cons, ← heq, Prod.ext_iff, or_assoc, or_left_comm]
      simp
    · next hne =>
      obtain ⟨readers, hget, hmem⟩ := ih hfirst
      refine ⟨readers, hget, fun site => ?_⟩
      rw [hmem, List.mem_cons, Prod.ext_iff, or_iff_right (a := _ ∧ _)]
      exact fun heq => hne heq.1.symm

end VariableTable

def readsIn (statements : List Statement) : List (Nat × Site) :=
  statements.flatMap fun statement => statement.expression.reads

theorem readsIn_cons (statement : Statement) (rest : List Statement) :
    readsIn (statement :: rest) = statement.expression.reads ++ readsIn rest :=
  List.flatMap_cons

theorem Node.reads_toExpression (node : Node) (arguments : List Expression) :
    (node.toExpression arguments).reads = Expression.readsOfAll arguments := by
  rw [toExpression]
  split <;> rw [Expression.reads]

namespace Outline

mutual

theorem run_recordExpression (o : Outline) (path : OffsetSet) (node : Node)
    (table : VariableTable) : (o.recordExpression path node).run table =
      (o.expression path node).map fun e => (e, table.addReaders e.reads) := by
  rw [recordExpression, Outline.expression]
  split
  · rfl
  · rw [StateT.run_bind]
    cases reserve node.argumentCount Expression.byteSize with
    | error fault => rfl
    | ok room =>
      change ((o.recordArguments (path.insert node.offset) node.offset 0 node.argumentInputs).run
        table >>= _) = _
      rw [run_recordArguments]
      cases o.arguments (path.insert node.offset) node.offset 0 node.argumentInputs with
      | error fault => rfl
      | ok arguments =>
        change Except.ok (node.toExpression arguments, _) =
          Except.ok (node.toExpression arguments, _)
        rw [Node.reads_toExpression]
termination_by (UInt32.size - path.size, 0)
decreasing_by exact .left _ _ (OffsetSet.room_insert_lt ‹_›)

theorem run_recordArgument (o : Outline) (path : OffsetSet) (site : Site) (input : Provenance)
    (table : VariableTable) : (o.recordArgument path site input).run table =
      (o.argument path site input).map fun e => (e, table.addReaders e.reads) := by
  rw [recordArgument, Outline.argument]
  split
  · change Except.ok (Expression.read _ site, _) = Except.ok (Expression.read _ site, _)
    rw [Expression.reads]
    rfl
  · split
    · rfl
    · split
      · rfl
      · exact run_recordExpression o path _ table
termination_by (UInt32.size - path.size, 1)
decreasing_by exact .right _ (by simp)

theorem run_recordArguments (o : Outline) (path : OffsetSet) (offset : UInt32) (slot : Nat)
    (inputs : List Provenance) (table : VariableTable) :
    (o.recordArguments path offset slot inputs).run table =
      (o.arguments path offset slot inputs).map fun l =>
        (l, table.addReaders (Expression.readsOfAll l)) := by
  cases inputs with
  | nil =>
    rw [recordArguments, Outline.arguments]
    change Except.ok ([], table) = Except.ok ([], table.addReaders (Expression.readsOfAll []))
    rw [Expression.readsOfAll]
    rfl
  | cons input rest =>
    rw [recordArguments, Outline.arguments, StateT.run_bind, run_recordArgument]
    cases o.argument path ⟨offset, slot⟩ input with
    | error fault => rfl
    | ok first =>
      change ((o.recordArguments path offset (slot + 1) rest).run _ >>= _) = _
      rw [run_recordArguments]
      cases o.arguments path offset (slot + 1) rest with
      | error fault => rfl
      | ok others =>
        change Except.ok (first :: others, _) =
          Except.ok (first :: others, table.addReaders (Expression.readsOfAll (first :: others)))
        rw [Expression.readsOfAll, VariableTable.addReaders_append]
termination_by (UInt32.size - path.size, inputs.length + 1)
decreasing_by
  · exact .right _ (by simp)
  · exact .right _ (by simp)

end

/-- The statements are built whatever the table, which gains what they read. -/
theorem run_recordStatements (o : Outline) (offsets : List UInt32) (table : VariableTable) :
    (o.recordStatements offsets).run table =
      (o.statements offsets).map fun l => (l, table.addReaders (readsIn l)) := by
  induction offsets generalizing table with
  | nil => rfl
  | cons offset rest ih =>
    rw [recordStatements, Outline.statements]
    split
    · rfl
    · next node _ =>
      split
      · exact ih table
      · rw [StateT.run_bind, run_recordExpression]
        cases o.expression .empty node with
        | error fault => rfl
        | ok expression =>
          change ((o.recordStatements rest).run _ >>= _) = _
          rw [ih]
          cases o.statements rest with
          | error fault => rfl
          | ok others =>
            change Except.ok (_ :: others, _) =
              Except.ok (_ :: others, table.addReaders (readsIn (_ :: others)))
            rw [readsIn_cons, VariableTable.addReaders_append]

end Outline

/-- A listing has the statements of the walk, over the variables with the readers that are found in
them. -/
theorem Graph.listingFrom_eq (graph : Graph) (start : UInt32) :
    graph.listingFrom start = (graph.outline.statements (graph.walk start)).map fun statements =>
      ⟨statements, graph.outline.naming.table.addReaders (readsIn statements)⟩ := by
  rw [listingFrom, Outline.run_recordStatements]
  cases graph.outline.statements (graph.walk start) <;> rfl

end StackLift
