import StackLift.Proofs.Placing
import StackLift.Proofs.Selectors

namespace StackLift

namespace Node

def fallThrough? (node : Node) : Option UInt32 :=
  match node.opcode.flow with
  | .next | .call | .conditionalJump => some node.next
  | .jump | .leave => none

def jumps (node : Node) : List UInt32 :=
  match node.opcode.flow with
  | .jump | .call | .conditionalJump => node.targets
  | .next | .leave => []

theorem successors_eq (node : Node) :
    node.successors = node.jumps ++ node.fallThrough?.toList := by
  rw [successors, jumps, fallThrough?]
  cases node.opcode.flow <;> simp

theorem pairwise_targets (node : Node) : node.targets.Pairwise (· < ·) := by
  rw [targets]
  split
  · next targets _ => exact targets.ascending
  · exact .nil

theorem reverse_successors (node : Node) :
    node.successors.reverse = node.fallThrough?.toList ++ node.jumps.reverse ∧
      node.jumps.reverse.Pairwise (· > ·) := by
  constructor
  · rw [successors_eq, List.reverse_append]
    cases node.fallThrough? <;> rfl
  · rw [List.pairwise_reverse, jumps]
    cases node.opcode.flow
    case next | leave => exact .nil
    case jump | call | conditionalJump => exact node.pairwise_targets

end Node

namespace Graph

variable {graph : Graph} {start offset : UInt32} {seen : OffsetSet}

/-- The depth-first preorder. Of the given offsets each that was not visited before is visited in
turn, and then, before the next of them, its successors, the last of them first. -/
def visits (graph : Graph) (seen : OffsetSet) : List UInt32 → List UInt32
  | [] => []
  | offset :: rest =>
    if offset ∈ seen then graph.visits seen rest
    else
      let inner := graph.visits (seen.insert offset) (graph.successors offset).reverse
      offset :: (inner ++ graph.visits (inner.foldl .insert (seen.insert offset)) rest)
termination_by offsets => (UInt32.size - seen.size, offsets.length)
decreasing_by
  · exact .right _ (by simp)
  · exact .left _ _ (OffsetSet.room_insert_lt ‹_›)
  · exact .left _ _ (Nat.lt_of_le_of_lt (OffsetSet.room_foldl_insert_le _ _)
      (OffsetSet.room_insert_lt ‹_›))

def preorder (graph : Graph) (start : UInt32) : List UInt32 :=
  graph.visits .empty [start]

theorem visits_cons_of_mem (h : offset ∈ seen) (rest : List UInt32) :
    graph.visits seen (offset :: rest) = graph.visits seen rest := by
  rw [visits, if_pos h]

theorem visits_cons_of_not_mem (h : offset ∉ seen) (rest : List UInt32) :
    graph.visits seen (offset :: rest) =
      offset :: (graph.visits (seen.insert offset) (graph.successors offset).reverse ++
        graph.visits ((graph.visits (seen.insert offset) (graph.successors offset).reverse).foldl
          .insert (seen.insert offset)) rest) := by
  rw [visits, if_neg h]

/-- What was visited before can be left out. -/
theorem visits_filter (graph : Graph) {p : UInt32 → Bool} {offsets : List UInt32}
    (h : ∀ a ∈ offsets, p a = false → a ∈ seen) :
    graph.visits seen (offsets.filter p) = graph.visits seen offsets := by
  induction offsets generalizing seen with
  | nil => rfl
  | cons offset rest ih =>
    have hrest : ∀ a ∈ rest, p a = false → a ∈ seen := fun a ha => h a (List.mem_cons_of_mem _ ha)
    cases hp : p offset with
    | false =>
      rw [List.filter_cons_of_neg (by simp [hp]), ih hrest,
        visits_cons_of_mem (h offset List.mem_cons_self hp)]
    | true =>
      rw [List.filter_cons_of_pos hp]
      by_cases hseen : offset ∈ seen
      · rw [visits_cons_of_mem hseen, visits_cons_of_mem hseen, ih hrest]
      · rw [visits_cons_of_not_mem hseen, visits_cons_of_not_mem hseen, ih]
        intro a ha hpa
        exact OffsetSet.mem_foldl_insert.2 (.inl (OffsetSet.mem_insert.2 (.inr (hrest a ha hpa))))

theorem visits_ahead (graph : Graph) (offset : UInt32) (seen : OffsetSet) :
    graph.visits seen (graph.ahead offset seen) =
      graph.visits seen (graph.successors offset).reverse := by
  rw [ahead, ← List.filter_reverse]
  apply visits_filter
  simp

/-- What is pending is met in preorder before what is pending behind it. -/
theorem walkFrom_append (graph : Graph) (pending rest : List UInt32) (seen : OffsetSet) :
    graph.walkFrom (pending ++ rest) seen = graph.visits seen pending ++
      graph.walkFrom rest ((graph.visits seen pending).foldl .insert seen) := by
  -- The room that is left shrinks with every offset that is met.
  induction hroom : UInt32.size - seen.size using Nat.strongRecOn
    generalizing pending rest seen with
  | ind room ih =>
    induction pending with
    | nil => rw [visits, List.nil_append, List.nil_append, List.foldl_nil]
    | cons offset later ihlater =>
      rw [List.cons_append, walkFrom]
      by_cases hseen : offset ∈ seen
      · rw [if_pos hseen, visits_cons_of_mem hseen]
        exact ihlater
      · have hlt := hroom ▸ OffsetSet.room_insert_lt hseen
        have hlater := Nat.lt_of_le_of_lt (OffsetSet.room_foldl_insert_le (seen.insert offset)
          (graph.visits (seen.insert offset) (graph.successors offset).reverse)) hlt
        rw [if_neg hseen, visits_cons_of_not_mem hseen, ih _ hlt _ _ _ rfl, visits_ahead,
          ih _ hlater _ _ _ rfl, List.foldl_cons, List.foldl_append, List.cons_append,
          List.append_assoc]

theorem walk_eq_preorder (graph : Graph) (start : UInt32) :
    graph.walk start = graph.preorder start := by
  have hwalk := graph.walkFrom_append [start] [] .empty
  rw [walkFrom, List.append_nil, List.append_nil] at hwalk
  exact hwalk

theorem head?_of_fallThrough? {pending before after : List UInt32} {t : UInt32} {node : Node}
    (h : graph.walkFrom pending seen = before ++ offset :: after)
    (hnode : graph.get? offset = some node) (ht : node.fallThrough? = some t)
    (hseen : t ∉ seen) (hbefore : t ∉ before ++ [offset]) : after.head? = some t := by
  fun_induction graph.walkFrom pending seen generalizing before with
  | case1 => exact absurd h.symm (by simp)
  | case2 _ _ _ _ ih => exact ih h hseen hbefore
  | case3 seen first rest hnew ih =>
    cases before with
    | nil =>
      obtain ⟨rfl, rfl⟩ := List.cons.inj h
      have hfresh : t ∉ seen.insert first := by
        rw [OffsetSet.mem_insert, not_or]
        exact ⟨fun heq => hbefore (List.mem_singleton.2 heq), hseen⟩
      rw [ahead, successors_of_get? hnode, ← List.filter_reverse, node.reverse_successors.1, ht,
        Option.toList_some, List.singleton_append,
        List.filter_cons_of_pos (p := (· ∉ seen.insert first)) (decide_eq_true hfresh),
        List.cons_append, walkFrom, if_neg hfresh]
      rfl
    | cons b before =>
      obtain ⟨rfl, hrest⟩ := List.cons.inj h
      rw [List.cons_append, List.mem_cons, not_or] at hbefore
      apply ih hrest ?_ hbefore.2
      rw [OffsetSet.mem_insert, not_or]
      exact ⟨hbefore.1, hseen⟩

/-- The statements of a listing stand in the order of the depth-first preorder that goes from each
offset to the code that follows, and then to its targets, the highest first. So the code that
follows an offset is visited next, unless it was visited before. -/
theorem roots_of_build_in_preorder {listing : Listing}
    (hbuild : (graph.build start).outcome = .ok listing) :
    listing.roots = ((graph.preorder start).filter (· ∉ graph.placement.inlined)).map some ∧
    (∀ node : Node, node.successors.reverse = node.fallThrough?.toList ++ node.jumps.reverse ∧
      node.jumps.reverse.Pairwise (· > ·)) ∧
    ∀ before offset after node t, graph.preorder start = before ++ offset :: after →
      graph.get? offset = some node → node.fallThrough? = some t → t ∉ before ++ [offset] →
      after.head? = some t := by
  rw [← walk_eq_preorder]
  refine ⟨Outline.roots_of_statements (statements_of_build hbuild), Node.reverse_successors, ?_⟩
  intro before offset after node t horder hnode ht hbefore
  exact head?_of_fallThrough? horder hnode ht (OffsetSet.not_mem_empty t) hbefore

end Graph

namespace Discovery

/-- The code behind the `JNZ` at 15 comes next, and its target 27 comes last, behind what both lead
to. -/
theorem choosing_in_preorder :
    ∃ graph listing, (choosing.discover [⟨0, 0⟩]).outcome = .ok graph ∧
      (graph.build 0).outcome = .ok listing ∧
      graph.preorder 0 = [0, 5, 10, 15, 16, 21, 26, 32, 33, 27] ∧
      listing.roots = [10, 15, 16, 21, 26, 32, 33, 27].map some := by
  have hrun : (choosing.discoverWithin 40 [⟨0, 0⟩]).map (fun outcome => outcome.map fun graph =>
      (graph.contains 0, graph.preorder 0,
        (graph.preorder 0).filter (· ∉ graph.placement.inlined))) =
      some (.ok (true, [0, 5, 10, 15, 16, 21, 26, 32, 33, 27],
        [10, 15, 16, 21, 26, 32, 33, 27])) := by cbv
  obtain ⟨graph, hgraph, hfacts⟩ := exists_discovered _ hrun
  simp only [Prod.mk.injEq] at hfacts
  obtain ⟨hstart, horder, hkept⟩ := hfacts
  obtain ⟨listing, hbuild⟩ := (passes_of_discover hgraph).build_ok hstart
  obtain ⟨hroots, _⟩ := Graph.roots_of_build_in_preorder hbuild
  rw [hkept] at hroots
  exact ⟨graph, listing, hgraph, hbuild, horder, hroots⟩

end Discovery

end StackLift
