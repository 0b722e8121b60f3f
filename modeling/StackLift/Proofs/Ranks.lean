import StackLift.Proofs.Grounded
import StackLift.Proofs.Growth

namespace StackLift

/-- Offsets of the graph rank below the bound, and every input of an instruction has a source that
ranks below the instruction. -/
structure Graph.Ranked (graph : Graph) (rank : UInt32 → Nat) (bound : Nat) : Prop where
  bounded : ∀ offset, graph.contains offset = true → rank offset < bound
  inputs : ∀ offset node, graph.get? offset = some node → ∀ input ∈ node.inputs,
    ∃ a ∈ input.sources, graph.contains a = true ∧ rank a < rank offset

theorem Node.Extends.exists_source {later earlier : Node} (h : later.Extends earlier)
    {P : UInt32 → Prop} (hearlier : ∀ input ∈ earlier.inputs, ∃ a ∈ input.sources, P a) :
    ∀ input ∈ later.inputs, ∃ a ∈ input.sources, P a := by
  intro input hinput
  obtain ⟨old, hold, hcovers⟩ := exists_mem_of_forall₂ h.inputs input hinput
  obtain ⟨a, ha, hp⟩ := hearlier old hold
  exact ⟨a, hcovers.sources a ha, hp⟩

namespace Discovery

variable {d : Discovery} {exports : List Export} {graph next : Graph} {frame : Frame}
  {frames rest : List Frame} {node known : Node} {call : Option Call} {e : Effect}

theorem Followed.source_of_found (h : d.Followed (graph.insert node) node known call e)
    (hdecode : d.decode frame = .ok node)
    (hframe : frame.Grounded fun a => graph.contains a = true) :
    ∀ input ∈ known.inputs, ∃ a ∈ input.sources, graph.contains a = true := by
  obtain ⟨_, hnode, hinputs, _⟩ := decode_cases hdecode
  obtain ⟨count, _, _, _, _, rfl⟩ := Frame.effect_cases h.effect
  have hrecorded := h.inputs
  rw [hinputs, recordInputs, if_pos rfl, hnode] at hrecorded
  intro input hinput
  rw [← Except.ok.inj hrecorded] at hinput
  have hgrounded := hframe.popped count input hinput
  obtain ⟨a, ha⟩ := Provenance.exists_mem_of_isEntry hgrounded.filled
  exact ⟨a, ha, hgrounded.within a ha⟩

section

variable (h : (d.visit graph frame).outcome = .ok (next, frames)) {rank : UInt32 → Nat}
  {bound : Nat} (hr : graph.Ranked rank bound)
include h hr

theorem visit_ranked_of_contains (hrecorded : graph.Recorded)
    (hold : graph.contains frame.ip = true) : next.Ranked rank bound := by
  have hmono := (visit_contains h).2
  have hwas : ∀ offset, next.contains offset = true → graph.contains offset = true := by
    intro offset hoffset
    rcases visit_followed h with ⟨_, rfl, _⟩ | ⟨_, _, _, _, _, _, hget, _⟩
    · exact hoffset
    · rw [Graph.contains, hget] at hoffset
      split at hoffset
      · next hip => rwa [hip]
      · exact hoffset
  refine ⟨fun offset hoffset => hr.bounded offset (hwas offset hoffset), ?_⟩
  intro offset node hnode
  obtain ⟨old, hold⟩ := Graph.contains_iff.1 (hwas offset (Graph.contains_iff.2 ⟨node, hnode⟩))
  obtain ⟨node', hnode', hextends⟩ := visit_extends h hrecorded offset old hold
  rw [hnode] at hnode'
  cases hnode'
  refine hextends.exists_source fun input hinput => ?_
  obtain ⟨a, ha, hcontains, hlt⟩ := hr.inputs offset old hold input hinput
  exact ⟨a, ha, hmono a hcontains, hlt⟩

/-- An offset that is new to the graph ranks above all that are there. -/
theorem visit_ranked_of_found (hg : graph.Grounded (frame :: rest))
    (hnew : graph.get? frame.ip = none) :
    next.Ranked (Function.update rank frame.ip bound) (bound + 1) := by
  have hmono := (visit_contains h).2
  have hother : ∀ {a}, graph.contains a = true →
      Function.update rank frame.ip bound a = rank a := by
    intro a ha
    apply Function.update_of_ne
    rintro rfl
    rw [Graph.contains, hnew] at ha
    cases ha
  rcases visit_followed h with
    ⟨⟨_, hold, _⟩, _, _⟩ | ⟨node, known, _, _, harrives, hknown, hget, _⟩
  · rw [hnew] at hold
    cases hold
  constructor
  · intro offset hoffset
    rw [Graph.contains, hget] at hoffset
    split at hoffset
    · next hip =>
      rw [hip, Function.update_self]
      exact Nat.lt_succ_self bound
    · rw [hother hoffset]
      exact Nat.lt_succ_of_lt (hr.bounded offset hoffset)
  · intro offset other hnode input hinput
    rw [hget] at hnode
    split at hnode
    · next hip =>
      cases hnode
      cases harrives with
      | grown hold _ =>
        rw [hnew] at hold
        cases hold
      | found _ hdecode =>
        obtain ⟨a, ha, hcontains⟩ :=
          hknown.source_of_found hdecode (hg.waiting frame List.mem_cons_self) input hinput
        refine ⟨a, ha, hmono a hcontains, ?_⟩
        rw [hip, Function.update_self, hother hcontains]
        exact hr.bounded a hcontains
    · obtain ⟨a, ha, hcontains, hlt⟩ := hr.inputs offset other hnode input hinput
      refine ⟨a, ha, hmono a hcontains, ?_⟩
      rwa [hother hcontains, hother (Graph.contains_iff.2 ⟨other, hnode⟩)]

end

theorem Passes.ranked {s : Search} (h : d.Passes exports s) :
    ∃ rank bound, s.graph.Ranked rank bound := by
  induction h with
  | start => exact ⟨fun _ => 0, 0, fun _ hoffset => (nomatch hoffset), fun _ _ h => (nomatch h)⟩
  | enter _ _ ih => exact ih
  | @visit graph _ frame _ _ hp hvisit ih =>
    obtain ⟨rank, bound, hr⟩ := ih
    cases hold : graph.get? frame.ip with
    | none => exact ⟨_, _, visit_ranked_of_found hvisit hr hp.grounded hold⟩
    | some old =>
      exact ⟨rank, bound, visit_ranked_of_contains hvisit hr hp.recorded
        (Graph.contains_iff.2 ⟨old, hold⟩)⟩

end Discovery

end StackLift
