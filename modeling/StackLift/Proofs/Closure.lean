import Mathlib.Logic.Relation
import StackLift.Graph.Producers

namespace StackLift.Graph

variable {graph : Graph} {v left right : Provenance} {a b : UInt32}

theorem mem_closure_of_found {pending : List UInt32} {found : OffsetSet} (ha : a ∈ found) :
    a ∈ graph.closure pending found := by
  fun_induction graph.closure pending found with
  | case1 => exact ha
  | case2 found offset rest _ ih => exact ih ha
  | case3 found offset rest _ ih => exact ih (OffsetSet.mem_insert.2 (.inr ha))

theorem inputSources_eq {node : Node} (h : graph.get? a = some node) :
    graph.inputSources a = node.inputs.flatMap fun input => input.sources.toList := by
  rw [inputSources, h]

/-- What a value rests on: its sources, what these consume, and so on. -/
def rests (graph : Graph) (v : Provenance) : OffsetSet :=
  graph.closure v.sources.toList .empty

def RestsOn (graph : Graph) : UInt32 → UInt32 → Prop :=
  Relation.ReflTransGen fun a b => b ∈ graph.inputSources a

theorem restsOn_of_mem_closure {pending : List UInt32} {found : OffsetSet} :
    ∀ b ∈ graph.closure pending found, b ∈ found ∨ ∃ a ∈ pending, graph.RestsOn a b := by
  fun_induction graph.closure pending found with
  | case1 found => exact fun b hb => .inl hb
  | case2 found offset rest _ ih =>
    intro b hb
    refine (ih b hb).imp_right ?_
    rintro ⟨a, ha, hrests⟩
    exact ⟨a, List.mem_cons_of_mem _ ha, hrests⟩
  | case3 found offset rest _ ih =>
    intro b hb
    rcases ih b hb with hb | ⟨a, ha, hrests⟩
    · rcases OffsetSet.mem_insert.1 hb with rfl | hb
      · exact .inr ⟨b, List.mem_cons_self, .refl⟩
      · exact .inl hb
    · rcases List.mem_append.1 ha with ha | ha
      · exact .inr ⟨offset, List.mem_cons_self, .head ha hrests⟩
      · exact .inr ⟨a, List.mem_cons_of_mem _ ha, hrests⟩

theorem mem_closure (graph : Graph) (pending : List UInt32) (found : OffsetSet) :
    (∀ a ∈ pending, a ∈ graph.closure pending found) ∧
      ∀ a ∈ graph.closure pending found, a ∈ found ∨
        ∀ b ∈ graph.inputSources a, b ∈ graph.closure pending found := by
  fun_induction graph.closure pending found with
  | case1 found => exact ⟨fun _ ha => (nomatch ha), fun a ha => .inl ha⟩
  | case2 found offset rest hfound ih =>
    refine ⟨?_, ih.2⟩
    intro a ha
    rcases List.mem_cons.1 ha with rfl | ha
    · exact mem_closure_of_found hfound
    · exact ih.1 a ha
  | case3 found offset rest hfound ih =>
    constructor
    · intro a ha
      rcases List.mem_cons.1 ha with rfl | ha
      · exact mem_closure_of_found (OffsetSet.mem_insert.2 (.inl rfl))
      · exact ih.1 a (List.mem_append_right _ ha)
    · intro a ha
      rcases ih.2 a ha with hinserted | hclosed
      · rcases OffsetSet.mem_insert.1 hinserted with rfl | hfound
        · exact .inr fun b hb => ih.1 b (List.mem_append_left _ hb)
        · exact .inl hfound
      · exact .inr hclosed

theorem mem_rests_iff : b ∈ graph.rests v ↔ ∃ a ∈ v.sources, graph.RestsOn a b := by
  constructor
  · intro hb
    exact (restsOn_of_mem_closure b hb).resolve_left (OffsetSet.not_mem_empty b)
  · obtain ⟨hpending, hclosed⟩ := graph.mem_closure v.sources.toList .empty
    rintro ⟨a, ha, hrests⟩
    induction hrests with
    | refl => exact hpending a ha
    | tail _ hstep ih => exact (hclosed _ ih).resolve_left (OffsetSet.not_mem_empty _) _ hstep

theorem mem_rests_of_mem_sources (ha : a ∈ v.sources) : a ∈ graph.rests v :=
  mem_rests_iff.2 ⟨a, ha, .refl⟩

theorem rests_eq_sources (h : ∀ a ∈ v.sources, graph.inputSources a = []) :
    graph.rests v = v.sources := by
  apply OffsetSet.ext_mem
  intro b
  rw [mem_rests_iff]
  constructor
  · rintro ⟨a, ha, hrests⟩
    rcases Relation.ReflTransGen.cases_head hrests with rfl | ⟨c, hc, _⟩
    · exact ha
    · rw [h a ha] at hc
      cases hc
  · exact fun hb => ⟨b, hb, .refl⟩

theorem mem_rests_of_node {node : Node} (hnode : graph.get? node.offset = some node)
    (hv : v.sources = .singleton node.offset) :
    b ∈ graph.rests v ↔ b = node.offset ∨ ∃ input ∈ node.inputs, b ∈ graph.rests input := by
  have hsource : b ∈ graph.rests v ↔ graph.RestsOn node.offset b := by
    simp only [mem_rests_iff, hv, OffsetSet.mem_singleton, exists_eq_left]
  rw [hsource, RestsOn, Relation.ReflTransGen.cases_head_iff, inputSources_eq hnode, eq_comm]
  refine or_congr_right ?_
  constructor
  · rintro ⟨a, ha, hrests⟩
    obtain ⟨input, hinput, ha⟩ := List.mem_flatMap.1 ha
    exact ⟨input, hinput, mem_rests_iff.2 ⟨a, ha, hrests⟩⟩
  · rintro ⟨input, hinput, hb⟩
    obtain ⟨a, ha, hrests⟩ := mem_rests_iff.1 hb
    exact ⟨a, List.mem_flatMap.2 ⟨input, hinput, ha⟩, hrests⟩

theorem mem_rests_of_operands {node : Node} (hnode : graph.get? node.offset = some node)
    (hv : v.sources = .singleton node.offset) (hinputs : node.inputs = [left, right]) :
    b ∈ graph.rests v ↔ b = node.offset ∨ b ∈ graph.rests left ∨ b ∈ graph.rests right := by
  rw [mem_rests_of_node hnode hv, hinputs]
  simp

theorem producers_eq (graph : Graph) (v : Provenance) :
    graph.producers v = (graph.rests v).toList.filterMap fun offset =>
      (graph.get? offset).map Node.toInstruction :=
  rfl

theorem filterMap_get?_singleton {node : Node} (hnode : graph.get? a = some node) :
    [a].filterMap (fun offset => (graph.get? offset).map Node.toInstruction) =
      [node.toInstruction] := by
  rw [List.filterMap_cons_some (by rw [hnode]; rfl), List.filterMap_nil]

end StackLift.Graph
