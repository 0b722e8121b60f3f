import StackLift.Proofs.Components
import StackLift.Proofs.Definitions

namespace StackLift

namespace Expression

theorem eq_read_of_offset? {e : Expression} (h : e.offset? = none) :
    ∃ index site, e = .read index site := by
  cases e with
  | read index site => exact ⟨index, site, rfl⟩
  | instruction => cases h
  | call => cases h

def Sited (whole : Expression) : Prop :=
  ∀ (parent : Expression) (slot index : Nat) (site : Site), whole.Part parent →
    parent.arguments[slot]? = some (.read index site) →
    parent.offset? = some site.offset ∧ slot = site.slot

theorem Sited.argument {whole child : Expression} {slot : Nat} (h : whole.Sited)
    (hchild : whole.arguments[slot]? = some child) : child.Sited :=
  fun parent slot index site hpart =>
    h parent slot index site ((Part.whole.argument hchild).trans hpart)

mutual

theorem part_of_mem_reads {index : Nat} {site : Site} :
    (e : Expression) → (index, site) ∈ e.reads → e.Part (.read index site)
  | .instruction offset opcode operand arguments, h => by
    rw [reads] at h
    obtain ⟨slot, child, hchild, hpart⟩ := exists_part_of_mem_readsOfAll arguments h
    exact (Part.whole.argument hchild).trans hpart
  | .call offset opcode service arguments, h => by
    rw [reads] at h
    obtain ⟨slot, child, hchild, hpart⟩ := exists_part_of_mem_readsOfAll arguments h
    exact (Part.whole.argument hchild).trans hpart
  | .read _ _, h => by
    rw [reads, List.mem_singleton] at h
    cases h
    exact .whole

theorem exists_part_of_mem_readsOfAll {index : Nat} {site : Site} :
    (l : List Expression) → (index, site) ∈ readsOfAll l →
      ∃ (slot : Nat) (child : Expression), l[slot]? = some child ∧
        child.Part (.read index site)
  | [], h => by
    rw [readsOfAll] at h
    cases h
  | first :: rest, h => by
    rw [readsOfAll] at h
    rcases List.mem_append.1 h with h | h
    · exact ⟨0, first, rfl, part_of_mem_reads first h⟩
    · obtain ⟨slot, child, hchild, hpart⟩ := exists_part_of_mem_readsOfAll rest h
      exact ⟨slot + 1, child, hchild, hpart⟩

end

theorem Sited.site_eq {e : Expression} (h : e.Sited) {offset : UInt32}
    (hoffset : e.offset? = some offset) {slot index : Nat} {site : Site}
    (hread : e.arguments[slot]? = some (.read index site)) : site = ⟨offset, slot⟩ := by
  obtain ⟨hsite, rfl⟩ := h e slot index site .whole hread
  rw [hoffset, Option.some.injEq] at hsite
  rw [hsite]

mutual

/-- The reads of an instruction whose labels are distinct have distinct sites, each at a label. -/
theorem nodup_sites : (e : Expression) → e.Sited → e.offset?.isSome → e.labels.Nodup →
    (e.reads.map Prod.snd).Nodup ∧ ∀ site ∈ e.reads.map Prod.snd, site.offset ∈ e.labels
  | .instruction offset opcode operand arguments, hsited, _, hlabels => by
    rw [labels] at hlabels
    obtain ⟨hnodup, hwithin⟩ := nodup_sitesOfAll offset 0 arguments
      (fun _ _ hchild => hsited.argument hchild)
      (fun slot _ _ hread => (Nat.zero_add slot).symm ▸ hsited.site_eq rfl hread) hlabels
    rw [reads, labels]
    exact ⟨hnodup, fun site hsite => List.mem_cons.2 ((hwithin site hsite).imp_left And.left)⟩
  | .call offset opcode service arguments, hsited, _, hlabels => by
    rw [labels] at hlabels
    obtain ⟨hnodup, hwithin⟩ := nodup_sitesOfAll offset 0 arguments
      (fun _ _ hchild => hsited.argument hchild)
      (fun slot _ _ hread => (Nat.zero_add slot).symm ▸ hsited.site_eq rfl hread) hlabels
    rw [reads, labels]
    exact ⟨hnodup, fun site hsite => List.mem_cons.2 ((hwithin site hsite).imp_left And.left)⟩
  | .read _ _, _, hsome, _ => by
    cases hsome

theorem nodup_sitesOfAll (offset : UInt32) (slot : Nat) : (l : List Expression) →
    (∀ (k : Nat) (child : Expression), l[k]? = some child → child.Sited) →
    (∀ (k index : Nat) (site : Site), l[k]? = some (.read index site) →
      site = ⟨offset, slot + k⟩) →
    (offset :: labelsOfAll l).Nodup →
    ((readsOfAll l).map Prod.snd).Nodup ∧ ∀ site ∈ (readsOfAll l).map Prod.snd,
      site.offset = offset ∧ slot ≤ site.slot ∨ site.offset ∈ labelsOfAll l
  | [], _, _, _ => by
    rw [readsOfAll]
    exact ⟨List.nodup_nil, fun _ h => absurd h List.not_mem_nil⟩
  | first :: rest, hsited, hslots, hlabels => by
    rw [labelsOfAll, List.nodup_cons, List.mem_append, not_or, List.nodup_append'] at hlabels
    obtain ⟨⟨hfirst, hrest⟩, hfirstLabels, hrestLabels, hdisjoint⟩ := hlabels
    have hlater : ∀ (k index : Nat) (site : Site), rest[k]? = some (.read index site) →
        site = ⟨offset, slot + 1 + k⟩ := by
      intro k index site hread
      rw [hslots (k + 1) index site hread, Nat.add_assoc, Nat.add_comm 1 k]
    obtain ⟨hnodup, hwithin⟩ := nodup_sitesOfAll offset (slot + 1) rest
      (fun k child hchild => hsited (k + 1) child hchild) hlater
      (List.nodup_cons.2 ⟨hrest, hrestLabels⟩)
    -- A read in front is made at this slot, and those of an instruction at its labels.
    have hhead : (first.reads.map Prod.snd).Nodup ∧ ∀ site ∈ first.reads.map Prod.snd,
        site = ⟨offset, slot⟩ ∨ site.offset ∈ first.labels := by
      cases hroot : first.offset? with
      | none =>
        obtain ⟨index, site, rfl⟩ := eq_read_of_offset? hroot
        rw [reads, List.map_singleton]
        refine ⟨List.nodup_singleton site, fun other hother => .inl ?_⟩
        rw [List.mem_singleton.1 hother]
        exact hslots 0 index site rfl
      | some root =>
        obtain ⟨hnodup, hwithin⟩ := nodup_sites first (hsited 0 first rfl)
          (by rw [hroot]; rfl) hfirstLabels
        exact ⟨hnodup, fun site hsite => .inr (hwithin site hsite)⟩
    rw [readsOfAll, labelsOfAll, List.map_append, List.nodup_append']
    refine ⟨⟨hhead.1, hnodup, ?_⟩, ?_⟩
    · intro site hsite hother
      rcases hhead.2 site hsite with rfl | hlabel
      · rcases hwithin _ hother with ⟨_, hslot⟩ | hlabel
        · exact absurd hslot (Nat.not_succ_le_self slot)
        · exact hrest hlabel
      · rcases hwithin site hother with ⟨heq, _⟩ | hlabel'
        · exact hfirst (heq ▸ hlabel)
        · exact hdisjoint hlabel hlabel'
    · intro site hsite
      rw [List.mem_append]
      rcases List.mem_append.1 hsite with hsite | hsite
      · rcases hhead.2 site hsite with rfl | hlabel
        · exact .inl ⟨rfl, Nat.le_refl slot⟩
        · exact .inr (.inl hlabel)
      · rcases hwithin site hsite with ⟨heq, hslot⟩ | hlabel
        · exact .inl ⟨heq, Nat.le_of_succ_le hslot⟩
        · exact .inr (.inr hlabel)

end

end Expression

theorem nodup_sites_readsIn {statements : List Statement}
    (hsited : ∀ statement ∈ statements,
      statement.expression.Sited ∧ statement.expression.offset?.isSome)
    (hlabels : (labelsOf statements).Nodup) : ((readsIn statements).map Prod.snd).Nodup := by
  obtain ⟨hnodup, hapart⟩ := List.nodup_flatMap.1 hlabels
  have hsites : ∀ statement ∈ statements,
      (statement.expression.reads.map Prod.snd).Nodup ∧
      ∀ site ∈ statement.expression.reads.map Prod.snd,
        site.offset ∈ statement.expression.labels :=
    fun statement hmem => Expression.nodup_sites statement.expression (hsited statement hmem).1
      (hsited statement hmem).2 (hnodup statement hmem)
  rw [readsIn, List.map_flatMap, List.nodup_flatMap]
  refine ⟨fun statement hmem => (hsites statement hmem).1, hapart.imp_of_mem ?_⟩
  intro a b ha hb hdisjoint site hsite hsite'
  exact hdisjoint ((hsites a ha).2 site hsite) ((hsites b hb).2 site hsite')

theorem Outline.site_of_argument {o : Outline} {path : OffsetSet} {site site' : Site}
    {input : Provenance} {index : Nat}
    (h : o.argument path site input = .ok (.read index site')) : site' = site := by
  rw [argument_of_read (argument_eq_read h)] at h
  cases h
  rfl

def VariableTable.Introduced (table : VariableTable) (index : Nat) : Prop :=
  ∃ v, table.get? index = some v ∧ ∀ r : Register, index ≠ r.index ∧ v.name ≠ r.name

namespace Graph

variable {graph : Graph} {start a : UInt32} {listing : Listing} {index : Nat}

/-- The reads of a listing and what its table says of them. -/
structure RecordsReads (graph : Graph) (listing : Listing) : Prop where
  readers : ∀ index v, listing.table.get? index = some v →
    ∀ site, site ∈ v.readers ↔ (index, site) ∈ readsIn listing.statements
  distinct : ((readsIn listing.statements).map Prod.snd).Nodup
  sited : ∀ statement ∈ listing.statements,
    statement.expression.Sited ∧ statement.expression.offset?.isSome
  read : ∀ index site, (index, site) ∈ readsIn listing.statements →
    listing.table.Introduced index
  assigned : ∀ statement ∈ listing.statements, ∀ index, statement.target = some index →
    listing.table.Introduced index
  bound : ∀ index site, (index, site) ∈ readsIn listing.statements →
    ∃ slot ∈ graph.slots, slot.site = site ∧ ∀ a ∈ slot.input.sources, graph.contains a = true →
      graph.outline.naming.holder? a = some index ∧
      ∀ statement ∈ listing.statements, statement.expression.offset? = some a →
        statement.target = some index

theorem readers_eq_nil {v : Variable} (h : graph.outline.naming.table.get? index = some v) :
    v.readers = [] := by
  have hmem := List.mem_of_getElem? h
  rw [toList_table] at hmem
  rcases List.mem_append.1 hmem with hregister | hintroduced
  · have hnone : ∀ v ∈ VariableTable.registers.toList, v.readers = [] := by decide
    exact hnone v hregister
  · obtain ⟨introduction, _, rfl⟩ := List.mem_map.1 hintroduced
    rfl

section

variable (hbuild : (graph.build start).outcome = .ok listing)
include hbuild

theorem table_of_build :
    listing.table = graph.outline.naming.table.addReaders (readsIn listing.statements) :=
  (of_listingFrom (listingFrom_of_build hbuild)).2

theorem mem_readers_iff {v : Variable} (hv : listing.table.get? index = some v) (site : Site) :
    site ∈ v.readers ↔ (index, site) ∈ readsIn listing.statements := by
  rw [table_of_build hbuild] at hv
  obtain ⟨hlt, _⟩ := List.getElem?_eq_some_iff.1 hv
  rw [← VariableTable.size, VariableTable.size_addReaders] at hlt
  have hfirst : graph.outline.naming.table.get? index = some _ := List.getElem?_eq_getElem hlt
  obtain ⟨readers, hget, hmem⟩ :=
    VariableTable.exists_readers hfirst (readsIn listing.statements)
  rw [hget] at hv
  cases hv
  rw [hmem, readers_eq_nil hfirst]
  simp

theorem introduced_of_holder? (h : graph.outline.naming.holder? a = some index) :
    listing.table.Introduced index := by
  obtain ⟨k, introduction, slot, hk, _, rfl, _, hname, _⟩ := exists_variable h
  obtain ⟨readers, hget, _⟩ :=
    VariableTable.exists_readers (get?_variable hk) (readsIn listing.statements)
  rw [← table_of_build hbuild] at hget
  refine ⟨_, hget, fun r => ⟨?_, ?_⟩⟩
  · have hlt := r.index.isLt
    omega
  · rw [hname]
    exact slot.variableName_ne_name r

theorem site_of_read {statement : Statement} (hstatement : statement ∈ listing.statements)
    {parent : Expression} {k : Nat} {site : Site} (hpart : statement.expression.Part parent)
    (hread : parent.arguments[k]? = some (.read index site)) :
    parent.offset? = some site.offset ∧ k = site.slot ∧ ∃ slot ∈ graph.slots, slot.site = site ∧
      graph.outline.naming.variableRead? slot.input = some index := by
  rcases part_of_statement hbuild hstatement hpart with hnone | ⟨inner, inside, hinner, hexpr, _⟩
  · rw [Expression.arguments_eq_nil hnone] at hread
    cases hread
  · have hoffset := offset?_of_expression hexpr
    obtain ⟨arguments, harguments, rfl⟩ := Outline.expression_cases hexpr
    rw [Node.arguments_toExpression] at hread
    obtain ⟨input, hinput, hargument⟩ := Outline.exists_input_of_arguments harguments hread
    rw [Nat.zero_add] at hargument
    obtain rfl := Outline.site_of_argument hargument
    exact ⟨hoffset, rfl, ⟨inner, k, input⟩,
      mem_slots_iff.2 ⟨hinner, Node.inputs_of_argumentInputs hinput⟩, rfl,
      Outline.argument_eq_read hargument⟩

theorem sited_of_mem_statements {statement : Statement}
    (hstatement : statement ∈ listing.statements) :
    statement.expression.Sited ∧ statement.expression.offset?.isSome := by
  constructor
  · intro parent k index site hpart hread
    obtain ⟨hoffset, hslot, _⟩ := site_of_read hbuild hstatement hpart hread
    exact ⟨hoffset, hslot⟩
  · obtain ⟨node, _, _, _, hexpression, _⟩ := of_mem_statements hbuild hstatement
    rw [offset?_of_expression hexpression]
    rfl

theorem exists_slot_of_part {statement : Statement} {site : Site}
    (hstatement : statement ∈ listing.statements)
    (hpart : statement.expression.Part (.read index site)) :
    ∃ slot ∈ graph.slots, slot.site = site ∧
      graph.outline.naming.variableRead? slot.input = some index := by
  generalize hread : Expression.read index site = read at hpart
  cases hpart with
  | whole =>
    have hroot := (sited_of_mem_statements hbuild hstatement).2
    rw [← hread] at hroot
    cases hroot
  | argument hparent hchild =>
    rw [← hread] at hchild
    exact (site_of_read hbuild hstatement hparent hchild).2.2

theorem exists_slot_of_mem_reads {site : Site}
    (h : (index, site) ∈ readsIn listing.statements) : ∃ slot ∈ graph.slots, slot.site = site ∧
      graph.outline.naming.variableRead? slot.input = some index := by
  obtain ⟨statement, hstatement, h⟩ := List.mem_flatMap.1 h
  exact exists_slot_of_part hbuild hstatement (Expression.part_of_mem_reads statement.expression h)

/-- The readers of the variables of a listing are its reads. No site is read twice; every read
stands at its site; what is read or assigned is a variable that was introduced, and what is read is
bound to all producers of the slot that are in the graph. -/
theorem build_recordsReads : graph.RecordsReads listing where
  readers _ _ hv := mem_readers_iff hbuild hv
  distinct := nodup_sites_readsIn (fun _ => sited_of_mem_statements hbuild) (nodup_labelsOf hbuild)
  sited _ := sited_of_mem_statements hbuild
  read index site h := by
    obtain ⟨slot, _, _, hread⟩ := exists_slot_of_mem_reads hbuild h
    obtain ⟨a, _, hholder⟩ := Naming.exists_holder_of_variableRead? hread
    exact introduced_of_holder? hbuild hholder
  assigned statement hstatement index htarget := by
    obtain ⟨node, _, _, _, _, hholder⟩ := of_mem_statements hbuild hstatement
    exact introduced_of_holder? hbuild (hholder.symm.trans htarget)
  bound index site h := by
    obtain ⟨slot, hslot, hsite, hread⟩ := exists_slot_of_mem_reads hbuild h
    refine ⟨slot, hslot, hsite, fun a ha hcontains => ?_⟩
    have hholder := holder?_of_variableRead? hslot hread ha hcontains
    refine ⟨hholder, fun statement hstatement hroot => ?_⟩
    obtain ⟨node, _, _, _, hexpression, htarget⟩ := of_mem_statements hbuild hstatement
    rw [offset?_of_expression hexpression, Option.some.injEq] at hroot
    rw [htarget, hroot, hholder]

end

end Graph

namespace Discovery

/-- In the loop one variable is read at 7 and at 9, the other one at 16. -/
theorem rotating_recordsReads :
    ∃ graph listing, (rotating.discover [⟨0, 0⟩]).outcome = .ok graph ∧
      (graph.build 0).outcome = .ok listing ∧ graph.RecordsReads listing ∧
      readsIn listing.statements = [(16, ⟨7, 0⟩), (16, ⟨9, 0⟩), (17, ⟨16, 0⟩)] ∧
      (listing.table.toList.drop 16).map Variable.readers = [[⟨7, 0⟩, ⟨9, 0⟩], [⟨16, 0⟩]] := by
  have hrun : (rotating.discoverWithin 40 [⟨0, 0⟩]).map (fun outcome => outcome.map fun graph => do
        let listing ← (graph.build 0).outcome.toOption
        return (readsIn listing.statements,
          (listing.table.toList.drop 16).map Variable.readers)) =
      some (.ok (some ([(16, (⟨7, 0⟩ : Site)), (16, ⟨9, 0⟩), (17, ⟨16, 0⟩)],
        [[(⟨7, 0⟩ : Site), ⟨9, 0⟩], [⟨16, 0⟩]]))) := by cbv
  obtain ⟨graph, hgraph, hfacts⟩ := exists_discovered _ hrun
  cases hbuild : (graph.build 0).outcome with
  | error fault =>
    rw [hbuild] at hfacts
    cases hfacts
  | ok listing =>
    rw [hbuild] at hfacts
    simp only [Except.toOption, Option.bind_eq_bind, Option.bind_some, Option.pure_def,
      Option.some.injEq, Prod.mk.injEq] at hfacts
    obtain ⟨hreads, hreaders⟩ := hfacts
    exact ⟨graph, listing, hgraph, hbuild, Graph.build_recordsReads hbuild, hreads, hreaders⟩

end Discovery

end StackLift
