import StackLift.Proofs.Readers

namespace StackLift

namespace VariableTable

def declarations (table : VariableTable) : List (String × ValueKind) :=
  table.toList.map fun v => (v.name, v.kind)

theorem declarations_addReader (table : VariableTable) (index : Nat) (site : Site) :
    (table.addReader index site).declarations = table.declarations := by
  apply List.ext_getElem?
  intro k
  have hget := table.get?_addReader index site k
  rw [declarations, declarations, List.getElem?_map, List.getElem?_map]
  rw [VariableTable.get?, VariableTable.get?] at hget
  rw [hget, Option.map_map]
  congr 1
  funext v
  rw [Function.comp_apply]
  split <;> rfl

theorem declarations_addReaders (table : VariableTable) (reads : List (Nat × Site)) :
    (table.addReaders reads).declarations = table.declarations := by
  induction reads generalizing table with
  | nil => rfl
  | cons read rest ih => exact (ih _).trans (table.declarations_addReader read.1 read.2)

end VariableTable

/-- The statement that an outline has for an offset, unless the instruction is inlined. -/
def Outline.statement? (o : Outline) (offset : UInt32) : Option Statement :=
  if offset ∈ o.inlined then none
  else do
    let node ← o.graph.get? offset
    let expression ← (o.expression .empty node).toOption
    return ⟨o.naming.holder? offset, expression⟩

theorem Outline.statements_eq_filterMap {o : Outline} {offsets : List UInt32}
    {statements : List Statement} (h : o.statements offsets = .ok statements) :
    statements = offsets.filterMap o.statement? := by
  induction offsets generalizing statements with
  | nil =>
    cases h
    rfl
  | cons offset rest ih =>
    rw [Outline.statements] at h
    split at h
    · cases h
    · next node hnode =>
      split at h
      · next hinlined =>
        have hnone : o.statement? offset = none := by simp [statement?, hinlined]
        rw [List.filterMap_cons_none hnone]
        exact ih h
      · next hinlined =>
        obtain ⟨expression, hexpression, h⟩ := bind_eq_ok.1 h
        obtain ⟨others, hothers, h⟩ := bind_eq_ok.1 h
        cases h
        have hsome : o.statement? offset = some ⟨o.naming.holder? offset, expression⟩ := by
          simp [statement?, hnode, hinlined, hexpression, Except.toOption]
        rw [List.filterMap_cons_some hsome, ← ih hothers]

theorem Outline.offset?_of_statement? {o : Outline} {offset : UInt32} {statement : Statement}
    (h : o.statement? offset = some statement) : statement.expression.offset? = some offset := by
  rw [statement?] at h
  split at h
  · cases h
  · obtain ⟨node, hnode, h⟩ := Option.bind_eq_some_iff.1 h
    obtain ⟨expression, hexpression, h⟩ := Option.bind_eq_some_iff.1 h
    cases h
    obtain ⟨arguments, _, rfl⟩ := expression_cases (ok_of_toOption_eq_some hexpression)
    rw [Node.offset?_toExpression, Graph.offset_of_get? hnode]

namespace Graph

variable {graph : Graph} {start other : UInt32} {listing listing' : Listing}

/-- A statement of a listing is the one that the graph has for its root. -/
theorem statement?_of_mem (hbuild : (graph.build start).outcome = .ok listing)
    {statement : Statement} (h : statement ∈ listing.statements) :
    ∃ offset, statement.expression.offset? = some offset ∧
      graph.outline.statement? offset = some statement := by
  rw [Outline.statements_eq_filterMap (statements_of_build hbuild)] at h
  obtain ⟨offset, _, h⟩ := List.mem_filterMap.1 h
  exact ⟨offset, Outline.offset?_of_statement? h, h⟩

theorem declarations_of_build (hbuild : (graph.build start).outcome = .ok listing) :
    listing.table.declarations = graph.outline.naming.table.declarations := by
  rw [table_of_build hbuild, VariableTable.declarations_addReaders]

/-- Listings of one graph declare the same variables in the same order, and statements with the same
root are the same, whatever the starts. -/
theorem listings_agree (hbuild : (graph.build start).outcome = .ok listing)
    (hother : (graph.build other).outcome = .ok listing') :
    listing.table.declarations = listing'.table.declarations ∧
    ∀ statement ∈ listing.statements, ∀ statement' ∈ listing'.statements,
      statement.expression.offset? = statement'.expression.offset? → statement = statement' := by
  refine ⟨(declarations_of_build hbuild).trans (declarations_of_build hother).symm, ?_⟩
  intro statement hstatement statement' hstatement' hroots
  obtain ⟨offset, hroot, hgiven⟩ := statement?_of_mem hbuild hstatement
  obtain ⟨offset', hroot', hgiven'⟩ := statement?_of_mem hother hstatement'
  have hsame : offset = offset' := Option.some.inj (hroot.symm.trans (hroots.trans hroot'))
  exact Option.some.inj (hgiven.symm.trans (hsame ▸ hgiven'))

end Graph

namespace Discovery

/-- The loop listed from two starts: it begins elsewhere, but has the same statements. -/
theorem rotating_listings_agree :
    ∃ graph listing listing', (rotating.discover [⟨0, 0⟩]).outcome = .ok graph ∧
      (graph.build 0).outcome = .ok listing ∧ (graph.build 9).outcome = .ok listing' ∧
      listing.roots = [0, 2, 7, 9, 11, 16].map some ∧
      listing'.roots = [9, 11, 16, 0, 2, 7].map some ∧
      listing.table.declarations = listing'.table.declarations ∧
      ∀ statement ∈ listing.statements, ∀ statement' ∈ listing'.statements,
        statement.expression.offset? = statement'.expression.offset? → statement = statement' := by
  have hrun : (rotating.discoverWithin 40 [⟨0, 0⟩]).map (fun outcome => outcome.map fun graph =>
      (graph.contains 0, graph.contains 9,
        (graph.walk 0).filter (· ∉ graph.placement.inlined),
        (graph.walk 9).filter (· ∉ graph.placement.inlined))) =
      some (.ok (true, true, [0, 2, 7, 9, 11, 16], [9, 11, 16, 0, 2, 7])) := by cbv
  obtain ⟨graph, hgraph, hfacts⟩ := exists_discovered _ hrun
  simp only [Prod.mk.injEq] at hfacts
  obtain ⟨hfirst, hlater, hwalk, hwalk'⟩ := hfacts
  obtain ⟨listing, hbuild⟩ := (passes_of_discover hgraph).build_ok hfirst
  obtain ⟨listing', hbuild'⟩ := (passes_of_discover hgraph).build_ok hlater
  have hroots : listing.roots = [0, 2, 7, 9, 11, 16].map some := by
    rw [← hwalk]
    exact Outline.roots_of_statements (Graph.statements_of_build hbuild)
  have hroots' : listing'.roots = [9, 11, 16, 0, 2, 7].map some := by
    rw [← hwalk']
    exact Outline.roots_of_statements (Graph.statements_of_build hbuild')
  exact ⟨graph, listing, listing', hgraph, hbuild, hbuild', hroots, hroots',
    Graph.listings_agree hbuild hbuild'⟩

end Discovery

end StackLift
