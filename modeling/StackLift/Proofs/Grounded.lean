import StackLift.Proofs.Passes
import StackLift.Proofs.Producers

namespace StackLift

variable {P Q : UInt32 → Prop}

structure Provenance.Grounded (v : Provenance) (P : UInt32 → Prop) : Prop where
  filled : v.isEntry = false
  within : v.Within P

namespace Provenance

theorem exists_mem_of_isEntry {v : Provenance} (h : v.isEntry = false) : ∃ a, a ∈ v.sources := by
  rw [isEntry, List.isEmpty_eq_false_iff_exists_mem] at h
  exact h

theorem grounded_producedBy {offset : UInt32} (h : P offset) (kind : ValueKind) :
    (producedBy offset kind).Grounded P := by
  refine ⟨rfl, ?_⟩
  intro a ha
  cases OffsetSet.mem_singleton.1 ha
  exact h

theorem Grounded.mono {v : Provenance} (h : v.Grounded P) (hPQ : ∀ a, P a → Q a) : v.Grounded Q :=
  ⟨h.filled, h.within.mono hPQ⟩

theorem Grounded.merge {v w : Provenance} (hv : v.Grounded P) (hw : w.Grounded P) :
    (v.merge w).Grounded P := by
  obtain ⟨a, ha⟩ := exists_mem_of_isEntry hv.filled
  exact ⟨isEntry_eq_false_of_mem (mem_sources_merge.2 (.inl ha)), hv.within.merge hw.within⟩

end Provenance

namespace Frame

/-- The cells of the stack are grounded, and what the registers hold has its sources in `P`. The
instruction pointer does not count. -/
structure Grounded (f : Frame) (P : UInt32 → Prop) : Prop where
  stack : ∀ v ∈ f.stack, v.Grounded P
  registers : ∀ r, r ≠ .ip → (f.registers.get r).Within P

variable {f g m : Frame} {i : Instruction}

theorem Grounded.within (h : f.Grounded P) : f.Within P :=
  ⟨fun v hv => (h.stack v hv).within, h.registers⟩

theorem grounded_start (ip key : UInt32) : (Frame.start ip key).Grounded P :=
  ⟨fun _ hv => (nomatch hv), (within_start ip key).registers⟩

theorem Grounded.mono (h : f.Grounded P) (hPQ : ∀ a, P a → Q a) : f.Grounded Q :=
  ⟨fun v hv => (h.stack v hv).mono hPQ, fun r hr => (h.registers r hr).mono hPQ⟩

theorem Grounded.moveTo (h : f.Grounded P) (ip : UInt32) : (f.moveTo ip).Grounded P :=
  ⟨h.stack, h.registers⟩

theorem Grounded.merge {grew : Bool} (hf : f.Grounded P) (hg : g.Grounded P)
    (h : f.merge g = .ok (m, grew)) : m.Grounded P := by
  have hregisters := (hf.within.merge hg.within h).registers
  rw [Frame.merge] at h
  split at h
  · cases h
    exact ⟨mergeStack_all (fun _ _ hv hw => hv.merge hw) hf.stack hg.stack, hregisters⟩
  · cases h

theorem Grounded.popped (h : f.Grounded P) (count : Nat) :
    ∀ v ∈ (f.stack.take count).reverse, v.Grounded P :=
  popped_all h.stack count

theorem Grounded.behindPops (h : f.Grounded P) (i : Instruction) (count : Nat) :
    (f.behindPops i count).Grounded P := by
  refine ⟨?_, (h.within.behindPops i count).registers⟩
  rw [stack_behindPops]
  exact fun v hv => h.stack v (List.mem_of_mem_drop hv)

theorem Grounded.pushed (h : f.Grounded P) (count : Nat) (hself : P i.offset) (kind : ValueKind) :
    ((f.behindPops i count).pushed i kind).Grounded P := by
  have hfilled : ∀ v ∈ f.stack, v.isEntry = false := fun v hv => (h.stack v hv).filled
  rcases pushed_behindPops hfilled i count kind with hcell | ⟨r, hr, hentry, hpushed⟩ | hpushed
  · exact h.stack _ hcell
  · rw [hpushed]
    exact ⟨hentry, h.registers r hr⟩
  · rw [hpushed]
    exact Provenance.grounded_producedBy hself _

theorem Grounded.behindPush (h : f.Grounded P) (count : Nat) (hself : P i.offset) :
    ∀ kind : Option ValueKind, ((f.behindPops i count).behindPush i kind).Grounded P
  | none => h.behindPops i count
  | some kind => by
    have hbehind := h.behindPops i count
    refine ⟨?_, hbehind.registers⟩
    intro v hv
    rcases List.mem_cons.1 hv with rfl | hv
    · exact h.pushed count hself kind
    · exact hbehind.stack v hv

theorem Grounded.effect {s : Option Signature} {e : Effect} (h : f.Grounded P)
    (hself : P i.offset) (he : f.effect i s = .ok e) :
    (∀ v ∈ e.popped, v.Grounded P) ∧ e.frame.Grounded P := by
  obtain ⟨count, kind, _, _, _, rfl⟩ := effect_cases he
  exact ⟨h.popped count, h.behindPush count hself kind⟩

end Frame

structure Node.Grounded (node : Node) (P : UInt32 → Prop) : Prop where
  frame : node.frame.Grounded P
  inputs : ∀ input ∈ node.inputs, input.Grounded P

theorem Node.Grounded.mono {node : Node} (h : node.Grounded P) (hPQ : ∀ a, P a → Q a) :
    node.Grounded Q :=
  ⟨h.frame.mono hPQ, fun input hinput => (h.inputs input hinput).mono hPQ⟩

namespace Graph

theorem contains_iff {graph : Graph} {offset : UInt32} :
    graph.contains offset = true ↔ ∃ node, graph.get? offset = some node := by
  rw [contains, Option.isSome_iff_exists]

structure Grounded (graph : Graph) (agenda : List Frame) : Prop where
  nodes : ∀ offset node, graph.get? offset = some node →
    node.Grounded fun a => graph.contains a = true
  waiting : ∀ f ∈ agenda, f.Grounded fun a => graph.contains a = true
  successors : ∀ offset node, graph.get? offset = some node → ∀ t ∈ node.successors,
    graph.contains t = true ∨ ∃ f ∈ agenda, f.ip = t

theorem grounded_empty : Graph.empty.Grounded [] :=
  ⟨fun _ _ h => (nomatch h), fun _ h => (nomatch h), fun _ _ h => (nomatch h)⟩

theorem Grounded.enter {graph : Graph} (h : graph.Grounded []) (ip key : UInt32) :
    graph.Grounded [.start ip key] := by
  refine ⟨h.nodes, ?_, ?_⟩
  · intro f hf
    rw [List.mem_singleton.1 hf]
    exact Frame.grounded_start ip key
  · intro offset node hnode t ht
    rcases h.successors offset node hnode t ht with hcontains | ⟨f, hf, _⟩
    · exact .inl hcontains
    · cases hf

theorem Grounded.contains_successor {graph : Graph} (h : graph.Grounded []) {offset t : UInt32}
    (ht : t ∈ graph.successors offset) : graph.contains t = true := by
  obtain ⟨node, hnode, ht⟩ := mem_successors_iff.1 ht
  rcases h.successors offset node hnode t ht with hcontains | ⟨_, hf, _⟩
  · exact hcontains
  · cases hf

end Graph

namespace Discovery

variable {d : Discovery} {graph next : Graph} {frame : Frame} {frames rest : List Frame}
  {node known : Node} {call : Option Call} {e : Effect}

theorem Arrives.grounded (h : d.Arrives graph frame node) (hnodes : ∀ offset old,
    graph.get? offset = some old → old.Grounded P) (hframe : frame.Grounded P) :
    node.Grounded P := by
  cases h with
  | found _ hdecode =>
    obtain ⟨_, hnode, hinputs, _⟩ := decode_cases hdecode
    constructor
    · rw [hnode]
      exact hframe
    · rw [hinputs]
      exact fun _ hinput => (nomatch hinput)
  | grown hget hmerge =>
    have hold := hnodes _ _ hget
    exact ⟨hold.frame.merge hframe hmerge, hold.inputs⟩

theorem Followed.grounded (h : d.Followed graph node known call e) (hnode : node.Grounded P)
    (hself : P node.offset) : known.Grounded P ∧ e.frame.Grounded P := by
  obtain ⟨hpopped, hbehind⟩ := hnode.frame.effect hself h.effect
  have hinputs := recordInputs_all (fun _ _ hv hw => hv.merge hw) h.inputs hnode.inputs hpopped
  exact ⟨⟨h.frame_eq ▸ hnode.frame, hinputs⟩, hbehind⟩

section

variable (h : (d.visit graph frame).outcome = .ok (next, frames))
include h

theorem visit_contains :
    next.contains frame.ip = true ∧ ∀ a, graph.contains a = true → next.contains a = true := by
  rcases visit_followed h with ⟨⟨old, hold, _⟩, rfl, _⟩ | ⟨_, known, _, _, _, _, hget, _⟩
  · exact ⟨Graph.contains_iff.2 ⟨old, hold⟩, fun _ ha => ha⟩
  · refine ⟨Graph.contains_iff.2 ⟨known, by rw [hget, if_pos rfl]⟩, ?_⟩
    intro a ha
    obtain ⟨old, hold⟩ := Graph.contains_iff.1 ha
    rw [Graph.contains_iff, hget]
    split
    · exact ⟨known, rfl⟩
    · exact ⟨old, hold⟩

theorem visit_leads {t : UInt32}
    (ht : graph.contains t = true ∨ ∃ f ∈ frame :: rest, f.ip = t) :
    next.contains t = true ∨ ∃ f ∈ frames ++ rest, f.ip = t := by
  obtain ⟨hself, hmono⟩ := visit_contains h
  rcases ht with ht | ⟨f, hf, hip⟩
  · exact .inl (hmono t ht)
  · rcases List.mem_cons.1 hf with rfl | hf
    · exact .inl (hip ▸ hself)
    · exact .inr ⟨f, List.mem_append_right _ hf, hip⟩

theorem visit_grounded (hg : graph.Grounded (frame :: rest)) : next.Grounded (frames ++ rest) := by
  obtain ⟨hself, hmono⟩ := visit_contains h
  have hnodes : ∀ offset old, graph.get? offset = some old →
      old.Grounded fun a => next.contains a = true :=
    fun offset old hold => (hg.nodes offset old hold).mono hmono
  have hwaiting : ∀ f ∈ frame :: rest, f.Grounded fun a => next.contains a = true :=
    fun f hf => (hg.waiting f hf).mono hmono
  have hleads : ∀ offset old, graph.get? offset = some old → ∀ t ∈ old.successors,
      next.contains t = true ∨ ∃ f ∈ frames ++ rest, f.ip = t :=
    fun offset old hold t ht => visit_leads h (hg.successors offset old hold t ht)
  rcases visit_followed h with
    ⟨_, rfl, rfl⟩ | ⟨node, known, call, e, harrives, hknown, hget, hframes⟩
  · exact ⟨hnodes, fun f hf => hwaiting f (List.mem_cons_of_mem _ hf), hleads⟩
  · have hnode := harrives.grounded hnodes (hwaiting frame List.mem_cons_self)
    obtain ⟨hnew, hbehind⟩ := hknown.grounded hnode (harrives.offset_eq ▸ hself)
    refine ⟨?_, ?_, ?_⟩
    · intro offset other hother
      rw [hget] at hother
      split at hother
      · cases hother
        exact hnew
      · exact hnodes offset other hother
    · intro f hf
      rcases List.mem_append.1 hf with hf | hf
      · rw [hframes] at hf
        obtain ⟨t, _, rfl⟩ := List.mem_map.1 hf
        exact hbehind.moveTo t
      · exact hwaiting f (List.mem_cons_of_mem _ hf)
    · intro offset other hother t ht
      rw [hget] at hother
      split at hother
      · cases hother
        refine .inr ⟨e.frame.moveTo t, List.mem_append_left _ ?_, rfl⟩
        rw [hframes]
        exact List.mem_map_of_mem (List.mem_reverse.2 ht)
      · exact hleads offset other hother t ht

end

/-- In every state that a discovery passes through all values are grounded. -/
theorem Passes.grounded {exports : List Export} {s : Search} (h : d.Passes exports s) :
    s.graph.Grounded s.agenda := by
  induction h with
  | start => exact Graph.grounded_empty
  | enter _ _ ih => exact ih.enter _ _
  | visit _ hvisit ih => exact visit_grounded hvisit ih

end Discovery

end StackLift
