import StackLift.Proofs.Producers
import StackLift.Proofs.Statements

namespace StackLift

/-- The position, counted from the first, of the latest offset that satisfies `p`; the offsets are
listed latest first. -/
def latest? (p : UInt32 → Bool) : List UInt32 → Option Nat
  | [] => none
  | offset :: earlier => if p offset then some earlier.length else latest? p earlier

theorem latest?_append {p : UInt32 → Bool} {a : UInt32} (ha : p a = true)
    (later before : List UInt32) :
    latest? p (later ++ a :: before) = some before.length ↔ ∀ b ∈ later, ¬p b = true := by
  induction later with
  | nil => simp [latest?, ha]
  | cons b later ih =>
    rw [List.cons_append, latest?, List.forall_mem_cons]
    by_cases hb : p b = true
    · have hlonger : before.length < (later ++ a :: before).length := by
        rw [List.length_append, List.length_cons]
        omega
      rw [if_pos hb, Option.some.injEq]
      exact ⟨fun heq => absurd heq (Nat.ne_of_gt hlonger), fun h => absurd hb h.1⟩
    · rw [if_neg hb, ih]
      exact ⟨fun h => ⟨hb, h⟩, fun h => h.2⟩

def Listing.assigns (listing : Listing) (index : Nat) (offset : UInt32) : Bool :=
  listing.statements.any fun statement =>
    statement.target = some index && statement.expression.offset? = some offset

namespace Graph

variable {graph : Graph} {start offset : UInt32} {listing : Listing} {index : Nat}

theorem holder?_of_variableRead? {slot : Slot} (hslot : slot ∈ graph.slots)
    (hread : graph.outline.naming.variableRead? slot.input = some index)
    (hsource : offset ∈ slot.input.sources) (hget : (graph.get? offset).isSome) :
    graph.outline.naming.holder? offset = some index := by
  obtain ⟨other, hother, hholder⟩ := Naming.exists_holder_of_variableRead? hread
  by_cases hne : offset = other
  · rw [hne]
    exact hholder
  · have hstored := mem_stored_of_meet hslot hsource hother hne hget
    have hotherStored := mem_stored_of_holder? hholder
    have hproducers : ∀ a ∈ slot.input.sources, a ∈ graph.placement.stored →
        a ∈ slot.storedProducers graph.placement.stored :=
      fun a ha hmem => List.mem_filter.2 ⟨ha, decide_eq_true hmem⟩
    apply (holder?_eq_some_iff hholder).2
    exact .rel other offset
      ⟨slot, hslot, hproducers other hother hotherStored, hproducers offset hsource hstored⟩

section

variable (hbuild : (graph.build start).outcome = .ok listing)
include hbuild

/-- What an instruction that is met is assigned to is the variable that holds its product. -/
theorem assigns_iff (hmet : offset ∈ graph.walk start) :
    listing.assigns index offset = true ↔ graph.outline.naming.holder? offset = some index := by
  have hstatements := statements_of_build hbuild
  simp only [Listing.assigns, List.any_eq_true, Bool.and_eq_true, decide_eq_true_eq]
  constructor
  · rintro ⟨statement, hstatement, htarget, hroot⟩
    obtain ⟨other, _, node, expression, hnode, hexpression, rfl⟩ :=
      Outline.exists_of_mem_statements hstatements hstatement
    obtain ⟨arguments, _, rfl⟩ := Outline.expression_cases hexpression
    rw [Node.offset?_toExpression, Option.some.injEq] at hroot
    have hoffset : node.offset = other := offset_of_get? hnode
    rw [← hroot, hoffset]
    exact htarget
  · intro hholder
    have hstored : offset ∈ graph.placement.stored := mem_stored_of_holder? hholder
    have hnot : offset ∉ graph.outline.inlined := not_mem_inlined_of_stored hstored
    obtain ⟨node, expression, hnode, hexpression, hmem⟩ :=
      Outline.exists_statement hstatements hmet hnot
    obtain ⟨arguments, _, rfl⟩ := Outline.expression_cases hexpression
    refine ⟨_, hmem, hholder, ?_⟩
    rw [Node.offset?_toExpression]
    exact congrArg some (offset_of_get? hnode)

theorem exists_slot_of_read {statement : Statement} (hstatement : statement ∈ listing.statements)
    (hroot : statement.expression.offset? = some offset) {node : Node}
    (hnode : graph.get? offset = some node) {slot : Nat} {site : Site}
    (hread : statement.expression.arguments[slot]? = some (.read index site)) :
    ∃ input, node.inputs[slot]? = some input ∧
      graph.outline.naming.variableRead? input = some index := by
  obtain ⟨other, _, node', expression, hnode', hexpression, rfl⟩ :=
    Outline.exists_of_mem_statements (statements_of_build hbuild) hstatement
  obtain ⟨arguments, harguments, rfl⟩ := Outline.expression_cases hexpression
  rw [Node.offset?_toExpression, Option.some.injEq] at hroot
  have hoffset : node'.offset = other := offset_of_get? hnode'
  have hsame : graph.get? other = some node' := hnode'
  rw [← hoffset, hroot, hnode] at hsame
  cases hsame
  rw [Node.arguments_toExpression] at hread
  obtain ⟨input, hinput, hargument⟩ := Outline.exists_input_of_arguments harguments hread
  exact ⟨input, Node.inputs_of_argumentInputs hinput, Outline.argument_eq_read hargument⟩

end

end Graph

namespace Discovery

/-- The variable that an instruction on a path reads is assigned at the push of the operand, and
the latest to be assigned to it there when no producer linked to the push comes after it. A push
that is masked is left out. -/
theorem latest_assigned_iff {d : Discovery} (hisa : d.isa = .reference) {exports : List Export}
    {graph : Graph} (h : (d.discover exports).outcome = .ok graph) {entry : Export}
    (hentry : entry ∈ exports) {listing : Listing}
    (hbuild : (graph.build entry.offset).outcome = .ok listing) {offset : UInt32}
    {earlier : List UInt32} (hpath : graph.Path entry.offset (offset :: earlier))
    {statement : Statement} (hstatement : statement ∈ listing.statements)
    (hroot : statement.expression.offset? = some offset) {slot index : Nat} {site : Site}
    (hread : statement.expression.arguments[slot]? = some (.read index site)) :
    ∃ node origins origin later before, graph.get? offset = some node ∧
      graph.originsAlong earlier = some origins ∧ (origins.popped node)[slot]? = some origin ∧
      earlier = later ++ origin.offset :: before ∧ before.length = origin.position ∧
      (¬graph.Masked origin.offset → listing.assigns index origin.offset = true ∧
        (latest? (listing.assigns index) earlier = some origin.position ↔
          ∀ other ∈ later, ¬graph.Linked origin.offset other)) := by
  obtain ⟨node, origins, hnode, horigins, haccounts⟩ := discover_accounts hisa h hentry hpath
  obtain ⟨input, hinput, hvariable⟩ :=
    Graph.exists_slot_of_read hbuild hstatement hroot hnode hread
  obtain ⟨origin, horigin, haccount⟩ := exists_getElem?_of_forall₂ haccounts hinput
  have hpopped : origin ∈ origins.stack :=
    List.mem_of_mem_take (List.mem_reverse.1 (List.mem_of_getElem? horigin))
  obtain ⟨hget, later, before, hearlier, hposition⟩ :=
    (Graph.all_originsAlong horigins).stack origin hpopped
  refine ⟨node, origins, origin, later, before, hnode, horigins, horigin, hearlier, hposition, ?_⟩
  intro hmasked
  have hmet : ∀ other ∈ earlier, other ∈ graph.walk entry.offset :=
    fun other hother => hpath.mem_walk other (List.mem_cons_of_mem _ hother)
  have hslot : (⟨node, slot, input⟩ : Slot) ∈ graph.slots := by
    rw [Graph.mem_slots_iff, Graph.offset_of_get? hnode]
    exact ⟨hnode, hinput⟩
  have hholder : graph.outline.naming.holder? origin.offset = some index :=
    Graph.holder?_of_variableRead? hslot hvariable (haccount.resolve_right hmasked) hget
  have horiginMet : origin.offset ∈ graph.walk entry.offset := by
    apply hmet
    rw [hearlier]
    exact List.mem_append_right _ List.mem_cons_self
  have hassigned : listing.assigns index origin.offset = true :=
    (Graph.assigns_iff hbuild horiginMet).2 hholder
  have hlinked : ∀ other ∈ later,
      listing.assigns index other = true ↔ graph.Linked origin.offset other := by
    intro other hother
    have hotherMet : other ∈ graph.walk entry.offset := by
      apply hmet
      rw [hearlier]
      exact List.mem_append_left _ hother
    rw [Graph.assigns_iff hbuild hotherMet]
    exact Graph.holder?_eq_some_iff hholder
  refine ⟨hassigned, ?_⟩
  rw [hearlier, ← hposition, latest?_append hassigned]
  constructor
  · intro hnone other hother hlink
    exact hnone other hother ((hlinked other hother).2 hlink)
  · intro hnone other hother hassigns
    exact hnone other hother ((hlinked other hother).1 hassigns)

/-- A path leads to a statement whose first argument reads the variable, for an operand of the given
origin. -/
structure ReadsAlong (graph : Graph) (listing : Listing) (offset : UInt32) (earlier : List UInt32)
    (index : Nat) (origin : Origin) : Prop where
  path : graph.Path 0 (offset :: earlier)
  statement : ∃ statement ∈ listing.statements, statement.expression.offset? = some offset ∧
    ∃ site, statement.expression.arguments[0]? = some (.read index site)
  popped : ∃ node origins, graph.get? offset = some node ∧
    graph.originsAlong earlier = some origins ∧ origins.popped node = [origin]

theorem readsAlong_of_eq {graph : Graph} {listing : Listing} {offset : UInt32}
    {earlier : List UInt32} {k index : Nat} {origin : Origin} {site : Site}
    (hpath : graph.Path 0 (offset :: earlier)) (h : (do
      let node ← graph.get? offset
      let origins ← graph.originsAlong earlier
      let statement ← listing.statements[k]?
      let argument ← statement.expression.arguments[0]?
      return (origins.popped node, statement.expression.offset?, argument.offset?,
        argument.reads)) = some ([origin], some offset, none, [(index, site)])) :
    ReadsAlong graph listing offset earlier index origin := by
  simp only [Option.bind_eq_bind, Option.bind_eq_some_iff, Option.pure_def, Option.some.injEq,
    Prod.mk.injEq] at h
  obtain ⟨node, hnode, origins, horigins, statement, hstatement, argument, hargument, hpopped,
    hroot, hread, hreads⟩ := h
  refine ⟨hpath, ⟨statement, List.mem_of_getElem? hstatement, hroot, site, ?_⟩,
    ⟨node, origins, hnode, horigins, hpopped⟩⟩
  cases argument with
  | instruction => cases hread
  | call => cases hread
  | read other place =>
    cases hreads
    exact hargument

/-- In the loop the read at 7 takes what was pushed at 2 and the read at 9 what was pushed at 0, but
2 and 0 share a variable. -/
theorem rotating_listing :
    ∃ graph listing, (rotating.discover [⟨0, 0⟩]).outcome = .ok graph ∧
      (graph.build 0).outcome = .ok listing ∧
      ReadsAlong graph listing 7 [2, 0] 16 ⟨1, 2⟩ ∧ ReadsAlong graph listing 9 [7, 2, 0] 16 ⟨0, 0⟩ ∧
      latest? (listing.assigns 16) [7, 2, 0] = some 1 ∧
      ∃ node input, graph.get? 9 = some node ∧ node.inputs = [input] ∧
        input.sources.toList = [0, 2] := by
  have hrun : (rotating.discoverWithin 40 [⟨0, 0⟩]).map (fun outcome => outcome.map fun graph =>
      ([0, 2, 7].map graph.successors, do
        let listing ← (graph.build 0).outcome.toOption
        let reads (k : Nat) (offset : UInt32) (earlier : List UInt32) := do
          let node ← graph.get? offset
          let origins ← graph.originsAlong earlier
          let statement ← listing.statements[k]?
          let argument ← statement.expression.arguments[0]?
          return (origins.popped node, statement.expression.offset?, argument.offset?,
            argument.reads)
        let node ← graph.get? 9
        return (reads 2 7 [2, 0], reads 3 9 [7, 2, 0], latest? (listing.assigns 16) [7, 2, 0],
          node.inputs.map fun input => input.sources.toList))) =
      some (.ok ([[2], [7], [9]],
        some (some ([⟨1, 2⟩], some (7 : UInt32), none, [(16, (⟨7, 0⟩ : Site))]),
          some ([⟨0, 0⟩], some (9 : UInt32), none, [(16, (⟨9, 0⟩ : Site))]), some 1,
          [[0, 2]]))) := by cbv
  obtain ⟨graph, hgraph, hfacts⟩ := exists_discovered _ hrun
  obtain ⟨hsuccessors, hfacts⟩ := Prod.mk.inj hfacts
  obtain ⟨listing, hlisting, hfacts⟩ := Option.bind_eq_some_iff.1 hfacts
  obtain ⟨node, hnode, hfacts⟩ := Option.bind_eq_some_iff.1 hfacts
  simp only [Option.pure_def, Option.some.injEq, Prod.mk.injEq] at hfacts
  obtain ⟨hkept, hshared, hlatest, hinputs⟩ := hfacts
  obtain ⟨input, hinput, hsources⟩ := List.map_eq_singleton_iff.1 hinputs
  simp only [List.map_cons, List.map_nil, List.cons.injEq, and_true] at hsuccessors
  have hpath : graph.Path 0 [0] := .start
  have hpath := hpath.step (t := 2) (by simp [hsuccessors])
  have hpath := hpath.step (t := 7) (by simp [hsuccessors])
  exact ⟨graph, listing, hgraph, ok_of_toOption_eq_some hlisting, readsAlong_of_eq hpath hkept,
    readsAlong_of_eq (hpath.step (by simp [hsuccessors])) hshared, hlatest, node, input, hnode,
    hinput, hsources⟩

/-- At 7 the push of the operand was assigned last. At 9 it was not, since a linked push follows. -/
theorem rotating_latest_assigned_iff :
    ∃ graph listing, (rotating.discover [⟨0, 0⟩]).outcome = .ok graph ∧
      (graph.build 0).outcome = .ok listing ∧ ¬graph.Masked 2 ∧ ¬graph.Masked 0 ∧
      ReadsAlong graph listing 7 [2, 0] 16 ⟨1, 2⟩ ∧ ReadsAlong graph listing 9 [7, 2, 0] 16 ⟨0, 0⟩ ∧
      listing.assigns 16 2 = true ∧ latest? (listing.assigns 16) [2, 0] = some 1 ∧
      listing.assigns 16 0 = true ∧ latest? (listing.assigns 16) [7, 2, 0] ≠ some 0 ∧
      ∃ other ∈ [7, 2], graph.Linked 0 other := by
  obtain ⟨graph, listing, hgraph, hbuild, hkept, hshared, hlatest, node, input, hnode, hinputs,
    hsources⟩ := rotating_listing
  have hrecorded : ∀ a ∈ [(0 : UInt32), 2], ¬graph.Masked a := by
    intro a ha
    apply not_masked_of_mem_sources rfl hgraph hnode (hinputs ▸ List.mem_singleton_self input)
    rwa [← OffsetSet.mem_toList, hsources]
  have hfirstKept := hrecorded 0 (by decide)
  have hsecondKept := hrecorded 2 (by decide)
  have hread : ∀ {offset earlier origin}, ReadsAlong graph listing offset earlier 16 origin →
      ¬graph.Masked origin.offset → ∃ later before, earlier = later ++ origin.offset :: before ∧
        before.length = origin.position ∧ listing.assigns 16 origin.offset = true ∧
        (latest? (listing.assigns 16) earlier = some origin.position ↔
          ∀ other ∈ later, ¬graph.Linked origin.offset other) := by
    rintro offset earlier origin ⟨hpath, ⟨statement, hstatement, hroot, site, hread⟩,
      node, origins, hnode, horigins, hpopped⟩ hmasked
    obtain ⟨node', origins', origin', later, before, hnode', horigins', horigin, hearlier,
      hposition, hassigned⟩ := latest_assigned_iff rfl hgraph (List.mem_singleton_self _) hbuild
        hpath hstatement hroot hread
    obtain rfl := Option.some.inj (hnode.symm.trans hnode')
    obtain rfl := Option.some.inj (horigins.symm.trans horigins')
    rw [hpopped] at horigin
    obtain rfl := Option.some.inj horigin
    exact ⟨later, before, hearlier, hposition, hassigned hmasked⟩
  obtain ⟨later, before, hearlier, hposition, hassigned, hiff⟩ := hread hkept hsecondKept
  obtain ⟨after, start, hearlier', hposition', hassigned', hiff'⟩ := hread hshared hfirstKept
  have hsplit : [] ++ [2, 0] = later ++ 2 :: before := hearlier
  have hsplit' : [7, 2] ++ [0] = after ++ 0 :: start := hearlier'
  rw [← List.append_inj_left' hsplit (congrArg Nat.succ hposition).symm] at hiff
  rw [← List.append_inj_left' hsplit' (congrArg Nat.succ hposition').symm] at hiff'
  have hlast : latest? (listing.assigns 16) [7, 2, 0] ≠ some 0 := by
    rw [hlatest]
    decide
  refine ⟨graph, listing, hgraph, hbuild, hsecondKept, hfirstKept, hkept, hshared, hassigned,
    hiff.2 fun _ hother => (nomatch hother), hassigned', hlast, ?_⟩
  by_contra hnone
  exact hlast (hiff'.2 fun other hother hlinked => hnone ⟨other, hother, hlinked⟩)

/-- The latest assignment to a variable that is read is not always the push of the operand. -/
theorem rotating_overwrites :
    ¬∀ (d : Discovery) (entry : Export) (graph : Graph) (listing : Listing), d.isa = .reference →
      (d.discover [entry]).outcome = .ok graph →
      (graph.build entry.offset).outcome = .ok listing →
      ∀ offset earlier, graph.Path entry.offset (offset :: earlier) →
      ∀ statement ∈ listing.statements, statement.expression.offset? = some offset →
      ∀ (slot index : Nat) (site : Site),
        statement.expression.arguments[slot]? = some (.read index site) →
        ∃ node origins origin, graph.get? offset = some node ∧
          graph.originsAlong earlier = some origins ∧
          (origins.popped node)[slot]? = some origin ∧
          latest? (listing.assigns index) earlier = some origin.position := by
  intro hall
  obtain ⟨graph, listing, hgraph, hbuild, _, hshared, hlatest, _⟩ := rotating_listing
  obtain ⟨statement, hstatement, hroot, site, hread⟩ := hshared.statement
  obtain ⟨node, origins, hnode, horigins, hpopped⟩ := hshared.popped
  obtain ⟨node', origins', origin, hnode', horigins', horigin, hposition⟩ :=
    hall rotating ⟨0, 0⟩ graph listing rfl hgraph hbuild 9 [7, 2, 0] hshared.path statement
      hstatement hroot 0 16 site hread
  rw [hnode] at hnode'
  rw [horigins] at horigins'
  cases hnode'
  cases horigins'
  rw [hpopped] at horigin
  cases horigin
  rw [hlatest] at hposition
  cases hposition

end Discovery

end StackLift
