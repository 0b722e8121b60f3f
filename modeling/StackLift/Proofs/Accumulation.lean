import StackLift.Proofs.Reading
import StackLift.Proofs.Simulation
import StackLift.Proofs.Stages
import StackLift.Proofs.Targets

namespace StackLift

theorem lowDword_of_lt {word : UInt64} (h : word.toNat < UInt32.size) : lowDword word = word := by
  apply UInt64.toNat_inj.1
  rw [toNat_lowDword, Nat.mod_eq_of_lt h]

namespace Image

variable {image : Image} {isa : InstructionSet} {key : UInt32} {position : Nat}

theorem kept_of_decode {decoded : Decoded} (h : (image.decode isa key position).1 = .ok decoded) :
    decoded.operand.kept decoded.opcode.form = decoded.operand := by
  obtain ⟨code, bytes, _, hlength, _, hoperand⟩ := holds_of_decode h
  cases hform : decoded.opcode.form with
  | dword =>
    rw [hform] at hoperand hlength
    have hshort : bytes.length ≤ 8 := hlength ▸ by decide
    have hlt := toNat_wordOfBytes_lt hshort
    rw [hlength] at hlt
    rw [← Option.some.inj hoperand]
    exact congrArg Operand.immediate (lowDword_of_lt hlt)
  | none | register | qword => rfl

end Image

namespace Machine

variable {instructions : List Instruction}

theorem execute_push {i : Instruction} {word : UInt64}
    (h : Action.of? i.opcode.code i.operand = some (.push word)) (m : Machine) :
    m.execute i = (.ok (), (m.setRegister .ip i.next.toUInt64).push word) := by
  simp only [execute, h]
  rfl

theorem run_of_pushes
    (h : ∀ i ∈ instructions, ∃ word, Action.of? i.opcode.code i.operand = some (.push word))
    (m : Machine) : ∃ final, m.run instructions = .ok final := by
  induction instructions generalizing m with
  | nil => exact ⟨m, rfl⟩
  | cons i rest ih =>
    obtain ⟨word, hword⟩ := h i List.mem_cons_self
    rw [run_cons (execute_push hword m)]
    exact ih (fun j hj => h j (List.mem_cons_of_mem _ hj)) _

theorem fold_pushes
    (h : ∀ i ∈ instructions, ∃ word, Action.of? i.opcode.code i.operand = some (.push word))
    {last : Instruction} {word : UInt64}
    (hlast : Action.of? last.opcode.code last.operand = some (.push word)) (m : Machine) :
    m.fold (instructions ++ [last]) = .ok word := by
  obtain ⟨before, hbefore⟩ := run_of_pushes h { m with stack := [] }
  rw [fold, run_concat hbefore (execute_push hlast before)]
  rfl

end Machine

namespace OffsetSet

variable {s : OffsetSet} {a last : UInt32} {earlier : List UInt32}

theorem exists_concat (ha : a ∈ s) : ∃ earlier last, s.toList = earlier ++ [last] := by
  obtain hnil | ⟨earlier, last, hconcat⟩ := s.toList.eq_nil_or_concat
  · rw [← mem_toList, hnil] at ha
    cases ha
  · exact ⟨earlier, last, hconcat.trans List.concat_eq_append⟩

theorem isGreatest_of_concat (h : s.toList = earlier ++ [last]) : IsGreatest {b | b ∈ s} last := by
  have hascending := s.ascending
  rw [h] at hascending
  refine ⟨mem_toList.1 (by simp [h]), fun b hb => ?_⟩
  have hb : b ∈ s.toList := hb
  rw [h] at hb
  rcases List.mem_append.1 hb with hearlier | hlast
  · exact UInt32.le_of_lt ((List.pairwise_append.1 hascending).2.2 b hearlier last
      List.mem_cons_self)
  · rw [List.mem_singleton.1 hlast]
    exact UInt32.le_refl last

theorem exists_isGreatest (ha : a ∈ s) : ∃ b, IsGreatest {b | b ∈ s} b := by
  obtain ⟨earlier, last, hconcat⟩ := exists_concat ha
  exact ⟨last, isGreatest_of_concat hconcat⟩

theorem toList_eq_concat (h : IsGreatest {b | b ∈ s} a) : ∃ earlier, s.toList = earlier ++ [a] := by
  obtain ⟨earlier, last, hconcat⟩ := exists_concat h.1
  have hlast := isGreatest_of_concat hconcat
  obtain rfl : last = a := UInt32.le_antisymm (h.2 hlast.1) (hlast.2 h.1)
  exact ⟨earlier, hconcat⟩

end OffsetSet

namespace Graph

variable {graph : Graph} {a : UInt32} {word : UInt64}

def Pushes (graph : Graph) (a : UInt32) (word : UInt64) : Prop :=
  ∃ node, graph.get? a = some node ∧
    (node.opcode.code = Code.pushDword ∨ node.opcode.code = Code.pushQword) ∧
    node.operand = .immediate word

/-- The instruction at the offset consumes nothing, and the machine pushes the word for it. -/
def Supplies (graph : Graph) (a : UInt32) (word : UInt64) : Prop :=
  ∃ node, graph.get? a = some node ∧ node.inputs = [] ∧
    Action.of? node.opcode.code node.operand = some (.push word)

/-- Where all sources supply a word, the value folds to that of the greatest one. -/
theorem fold_of_supplies (machine : Machine) {v : Provenance}
    (hsources : ∀ b ∈ v.sources, ∃ word, graph.Supplies b word)
    (hgreatest : IsGreatest {b | b ∈ v.sources} a) (ha : graph.Supplies a word) :
    machine.fold (graph.producers v) = .ok word := by
  have hnone : ∀ b ∈ v.sources, graph.inputSources b = [] := by
    intro b hb
    obtain ⟨_, node, hnode, hinputs, _⟩ := hsources b hb
    rw [inputSources_eq hnode, hinputs]
    rfl
  obtain ⟨earlier, hearlier⟩ := OffsetSet.toList_eq_concat hgreatest
  obtain ⟨node, hnode, _, hword⟩ := ha
  rw [producers_eq, rests_eq_sources hnone, hearlier, List.filterMap_append,
    filterMap_get?_singleton hnode]
  refine Machine.fold_pushes ?_ hword machine
  intro i hi
  obtain ⟨b, hb, hi⟩ := List.mem_filterMap.1 hi
  have hmem : b ∈ v.sources := by
    rw [← OffsetSet.mem_toList, hearlier]
    exact List.mem_append_left _ hb
  obtain ⟨word', node', hnode', _, hword'⟩ := hsources b hmem
  rw [hnode'] at hi
  cases hi
  exact ⟨word', hword'⟩

end Graph

namespace Discovery

variable {d : Discovery} {exports rest : List Export} {graph next : Graph} {frame : Frame}
  {node known : Node} {call : Option Call} {e : Effect} {offset t : UInt32} {s : Search}

theorem Passes.kept (h : d.Passes exports s) : ∀ offset node, s.graph.get? offset = some node →
    node.operand.kept node.opcode.form = node.operand := by
  intro offset node hnode
  exact Image.kept_of_decode (h.stands offset node hnode).decode

theorem supplies_of_pushes (hisa : d.isa = .reference)
    (h : (d.discover exports).outcome = .ok graph) {a : UInt32} {word : UInt64}
    (hpushes : graph.Pushes a word) : graph.Supplies a word := by
  have hreturn : d.isa.CallsReturn := hisa ▸ InstructionSet.reference_callsReturn
  obtain ⟨node, hnode, hcode, hoperand⟩ := hpushes
  have hp := passes_of_discover h
  have hkept := hp.kept a node hnode
  have hopcode : node.opcode ∈ InstructionSet.reference.opcodes :=
    hisa ▸ (hp.drawnFrom hreturn a node hnode).opcode
  have hrow : ∀ opcode ∈ InstructionSet.reference.opcodes,
      (opcode.code = Code.pushDword → opcode.form = .dword ∧ opcode.pops = .none) ∧
        (opcode.code = Code.pushQword → opcode.pops = .none) := by decide
  obtain ⟨hdword, hqword⟩ := hrow node.opcode hopcode
  have hpops : node.opcode.pops = .none := hcode.elim (fun h => (hdword h).2) hqword
  refine ⟨node, hnode, ?_, ?_⟩
  · obtain ⟨e, hsettles⟩ := (discover_settling hreturn h).settles a node hnode
    have hpopped := (Frame.popped_eq_nil_iff hsettles.effect).2 hpops
    have hinputs := hsettles.inputs
    rw [hpopped] at hinputs
    exact List.forall₂_nil_right_iff.1 hinputs
  · rcases hcode with hcode | hcode
    · rw [hoperand, (hdword hcode).1] at hkept
      have hlow : lowDword word = word := Operand.immediate.inj hkept
      rw [hcode, hoperand]
      exact congrArg (fun word => some (Action.push word)) hlow
    · rw [hcode, hoperand]
      rfl

theorem supplies_of_extends (hext : graph.Extends next) {a : UInt32} {word : UInt64}
    (ha : next.contains a = true) (h : graph.Supplies a word) : next.Supplies a word := by
  obtain ⟨old, hold⟩ := Graph.contains_iff.1 ha
  obtain ⟨node, hnode, hgrown⟩ := hext a old hold
  obtain ⟨node', hnode', hinputs, hword⟩ := h
  rw [hnode] at hnode'
  cases hnode'
  refine ⟨old, hold, ?_, ?_⟩
  · have hcovers := hgrown.inputs
    rw [hinputs] at hcovers
    exact List.forall₂_nil_left_iff.1 hcovers
  · rwa [← hgrown.instruction]

theorem mem_of_gainTarget {offset target : UInt32} {known inferred : Inferred} (node : Node)
    (h : (gainTarget offset target known).outcome = .ok inferred)
    (ht : t ∈ ({ node with inferred := inferred } : Node).targets) :
    t = target ∨ t ∈ ({ node with inferred := known } : Node).targets := by
  cases known with
  | nothing | call =>
    cases h
    exact .inl (List.mem_singleton.1 ht)
  | targets targets =>
    rw [gainTarget] at h
    split at h
    · cases h
      exact .inr ht
    · cases h
      exact OffsetSet.mem_insert.1 ht

theorem Followed.target_cases (h : d.Followed graph node known call e)
    (ht : node.opcode.transfersControl = true) (harity : node.opcode.variableArity = false)
    (hself : next.get? node.offset = some known)
    (hrest : ∀ offset, offset ≠ node.offset → next.get? offset = graph.get? offset)
    (hmem : t ∈ known.targets) :
    t ∈ node.targets ∨ ∃ input, d.Resolves next known input t := by
  have hinferred := h.inferred
  have htransfers : (node.consuming known.inputs call).opcode.transfersControl = true := ht
  rw [resolveTarget, if_pos htransfers] at hinferred
  obtain ⟨target, htarget, hgain⟩ := Traced.outcome_bind_eq_ok.1 hinferred
  have hrecorded := hmem
  rw [h.eq] at hmem
  rcases mem_of_gainTarget node hgain hmem with rfl | hold
  · obtain ⟨input, hlast, hfold⟩ := Discovery.target_cases htarget
    exact .inr ⟨input, hlast, (h.fold_eq hself hrest input).trans hfold, hrecorded⟩
  · rw [h.call_eq_none harity] at hold
    exact .inl hold

/-- Every recorded target was resolved at some stage. -/
theorem Stage.resolved (hisa : d.isa.CallsReturn) (h : d.Stage exports rest s)
    (hnode : s.graph.get? offset = some node) (ht : node.opcode.transfersControl = true)
    (hmem : t ∈ node.targets) : ∃ rest' s' node' v, d.Stage exports rest' s' ∧
      s'.graph.get? offset = some node' ∧ d.Resolves s'.graph node' v t := by
  induction h generalizing node with
  | start => cases hnode
  | enter _ ih => exact ih hnode ht hmem
  | @visit rest graph next frame frames waiting hstage hvisit ih =>
    rcases visit_followed hvisit with
      ⟨_, rfl, _⟩ | ⟨arrived, known, _, _, harrives, hknown, hget, _⟩
    · exact ih hnode ht hmem
    · have hnext := hget offset
      rw [hnode] at hnext
      split at hnext
      · next hoffset =>
        cases hnext
        rw [hknown.toInstruction_eq] at ht
        obtain ⟨hself, hothers⟩ := harrives.get?_next hget
        have hopcode := (harrives.admits (hstage.passes.drawnFrom hisa)).opcode
        have harity : arrived.opcode.variableArity = false := by
          rw [Bool.eq_false_iff]
          intro hvariable
          rw [hisa _ hopcode hvariable] at ht
          cases ht
        rcases hknown.target_cases ht harity hself hothers hmem with hold | ⟨v, hresolves⟩
        · cases harrives with
          | found _ hdecode =>
            rw [Node.targets, inferred_of_decode hdecode] at hold
            cases hold
          | grown hbefore _ =>
            rw [← hoffset] at hbefore
            exact (ih hbefore ht hold :)
        · exact ⟨rest, _, node, v, hstage.visit hvisit, hnode, hresolves⟩
      · exact ih hnext.symm ht hmem

/-- At some stage the last input of the instruction was recorded as the value. -/
def Took (d : Discovery) (exports : List Export) (offset : UInt32) (v : Provenance) : Prop :=
  ∃ rest s node, d.Stage exports rest s ∧ s.graph.get? offset = some node ∧
    node.inputs.getLast? = some v

section

variable (hisa : d.isa = .reference) (h : (d.discover exports).outcome = .ok graph)
include hisa h

theorem fold_of_pushes {earlier : Graph} {agenda : List Frame}
    (hp : d.Passes exports ⟨earlier, agenda⟩) (hext : graph.Extends earlier)
    (hnode : earlier.get? offset = some node) {v : Provenance} (hv : v ∈ node.inputs)
    (hpushes : ∀ b ∈ v.sources, ∃ word, graph.Pushes b word) {a : UInt32} {word : UInt64}
    (hgreatest : IsGreatest {b | b ∈ v.sources} a) (ha : graph.Pushes a word) :
    d.fold earlier v = .ok word := by
  have hwithin := ((hp.grounded.nodes offset node hnode).inputs v hv).within
  have hsupplies : ∀ b ∈ v.sources, ∀ word, graph.Pushes b word → earlier.Supplies b word :=
    fun b hb word hpush => supplies_of_extends hext (hwithin b hb) (supplies_of_pushes hisa h hpush)
  apply Graph.fold_of_supplies d.machine ?_ hgreatest (hsupplies a hgreatest.1 word ha)
  intro b hb
  obtain ⟨word, hpush⟩ := hpushes b hb
  exact ⟨word, hsupplies b hb word hpush⟩

variable (hnode : graph.get? offset = some node) (ht : node.opcode.transfersControl = true)
  {input : Provenance} (hlast : node.inputs.getLast? = some input)
  (hpushes : ∀ a ∈ input.sources, ∃ word, graph.Pushes a word)
include hnode

omit hisa in
theorem Stage.extends_node (hstage : d.Stage exports rest s) {earlier : Node}
    (hearlier : s.graph.get? offset = some earlier) : node.Extends earlier := by
  obtain ⟨node', hnode', hgrown⟩ := hstage.extends h offset earlier hearlier
  rw [hnode] at hnode'
  exact Option.some.inj hnode' ▸ hgrown

include ht hlast hpushes

/-- What the greatest of the sources pushed by then was recorded at every stage. -/
theorem target_of_took {v : Provenance} (htook : d.Took exports offset v) {a : UInt32}
    {word : UInt64} (hgreatest : IsGreatest {b | b ∈ v.sources} a) (ha : graph.Pushes a word) :
    ∃ t ∈ node.targets, t.toUInt64 = word := by
  have hreturn : d.isa.CallsReturn := hisa ▸ InstructionSet.reference_callsReturn
  obtain ⟨rest, s, earlier, hstage, hearlier, hv⟩ := htook
  have hgrown := hstage.extends_node h hnode hearlier
  have hcovers := getLast_of_forall₂ hgrown.inputs hlast hv
  rw [hgrown.instruction] at ht
  obtain ⟨first, agenda, v', t, hp, hext, hfirst, hresolves⟩ :=
    hstage.passes.resolved offset earlier hearlier ht
  obtain rfl : v' = v := Option.some.inj (hresolves.last.symm.trans hv)
  have hfold := fold_of_pushes hisa h hp ((hstage.extends h).trans hext) hfirst
    (List.mem_of_getLast? hv) (fun b hb => hpushes b (hcovers.sources b hb)) hgreatest ha
  have hword := Except.ok.inj (hresolves.fold.symm.trans hfold)
  refine ⟨t, hgrown.targets ?_ t hresolves.recorded, hword⟩
  rw [Bool.eq_false_iff]
  intro hvariable
  have hmem := (hstage.passes.drawnFrom hreturn offset earlier hearlier).opcode
  rw [hreturn _ hmem hvariable] at ht
  cases ht

/-- The targets of a transfer to what is pushed by immediate pushes are those that the last of its
producers by offset pushed at some stage, of the producers known then. No other producer's target is
recorded, and that of the last one in the end is. -/
theorem mem_targets_iff_took :
    (∀ t, t ∈ node.targets ↔ ∃ v a, d.Took exports offset v ∧
      IsGreatest {b | b ∈ v.sources} a ∧ graph.Pushes a t.toUInt64) ∧
    (∀ t ∈ node.targets, ∃ a ∈ input.sources, graph.Pushes a t.toUInt64) ∧
    ∃ t ∈ node.targets, ∃ a, IsGreatest {b | b ∈ input.sources} a ∧ graph.Pushes a t.toUInt64 := by
  have hreturn : d.isa.CallsReturn := hisa ▸ InstructionSet.reference_callsReturn
  have htaken : ∀ t ∈ node.targets, ∃ v a, d.Took exports offset v ∧ input.Covers v ∧
      IsGreatest {b | b ∈ v.sources} a ∧ graph.Pushes a t.toUInt64 := by
    intro t hmem
    obtain ⟨rest, s, earlier, v, hstage, hearlier, hresolves⟩ :=
      (stage_of_discover h).resolved hreturn hnode ht hmem
    have hgrown := hstage.extends_node h hnode hearlier
    have hcovers := getLast_of_forall₂ hgrown.inputs hlast hresolves.last
    have hv := List.mem_of_getLast? hresolves.last
    obtain ⟨b, hb⟩ := Provenance.exists_mem_of_isEntry
      ((hstage.passes.grounded.nodes offset earlier hearlier).inputs v hv).filled
    obtain ⟨a, hgreatest⟩ := OffsetSet.exists_isGreatest hb
    have hsources : ∀ b ∈ v.sources, ∃ word, graph.Pushes b word :=
      fun b hb => hpushes b (hcovers.sources b hb)
    obtain ⟨word, ha⟩ := hsources a hgreatest.1
    have hfold := fold_of_pushes hisa h hstage.passes (hstage.extends h) hearlier hv hsources
      hgreatest ha
    obtain rfl : t.toUInt64 = word := Except.ok.inj (hresolves.fold.symm.trans hfold)
    exact ⟨v, a, ⟨rest, s, earlier, hstage, hearlier, hresolves.last⟩, hcovers, hgreatest, ha⟩
  refine ⟨fun t => ⟨fun hmem => ?_, ?_⟩, fun t hmem => ?_, ?_⟩
  · obtain ⟨v, a, htook, _, hgreatest, ha⟩ := htaken t hmem
    exact ⟨v, a, htook, hgreatest, ha⟩
  · rintro ⟨v, a, htook, hgreatest, ha⟩
    obtain ⟨t', hmem, hword⟩ := target_of_took hisa h hnode ht hlast hpushes htook hgreatest ha
    rwa [← UInt32.toUInt64_inj.1 hword]
  · obtain ⟨v, a, _, hcovers, hgreatest, ha⟩ := htaken t hmem
    exact ⟨a, hcovers.sources a hgreatest.1, ha⟩
  · obtain ⟨b, hb⟩ := Provenance.exists_mem_of_isEntry
      (((passes_of_discover h).grounded.nodes offset node hnode).inputs input
        (List.mem_of_getLast? hlast)).filled
    obtain ⟨a, hgreatest⟩ := OffsetSet.exists_isGreatest hb
    obtain ⟨word, ha⟩ := hpushes a hgreatest.1
    obtain ⟨t, hmem, rfl⟩ := target_of_took hisa h hnode ht hlast hpushes
      ⟨[], _, node, stage_of_discover h, hnode, hlast⟩ hgreatest ha
    exact ⟨t, hmem, a, hgreatest, ha⟩

end

/-- `PUSHI_DWORD 12; JMP; PUSHI_DWORD 29`, then at 11 `JMP`, at 12 `PUSHI_DWORD 23;
PUSHI_DWORD 11; JMP` back to it, at 23 `PUSHI_DWORD 6; JMP` back to the push in front of it, and
`RET` at 29. -/
def detouring : Discovery :=
  ⟨(maskBytes 0 0 [0x04, 12, 0, 0, 0, 0x30, 0x04, 29, 0, 0, 0, 0x30, 0x04, 23, 0, 0, 0,
      0x04, 11, 0, 0, 0, 0x30, 0x04, 6, 0, 0, 0, 0x30, 0x34]).toArray, .reference, .ofPresets []⟩

/-- The `JMP` at 11 is reached with the push at 12 first, and stays with its target when the one at
6 is known. -/
theorem detouring_graph :
    ∃ graph node input, (detouring.discover [⟨0, 0⟩]).outcome = .ok graph ∧
      graph.get? 11 = some node ∧ node.opcode.transfersControl = true ∧ node.targets = [23] ∧
      node.inputs.getLast? = some input ∧ (6 ∈ input.sources ∧ graph.Pushes 6 29) ∧
      ∀ a ∈ input.sources, ∃ word, graph.Pushes a word := by
  have hrun : (detouring.discoverWithin 40 [⟨0, 0⟩]).map (fun outcome => outcome.map fun graph => do
      let node ← graph.get? 11
      let input ← node.inputs.getLast?
      let low ← graph.get? 6
      let high ← graph.get? 12
      return (node.opcode.transfersControl, node.targets, input.sources.toList,
        (low.opcode.code, low.operand), high.opcode.code, high.operand)) =
      some (.ok (some (true, [23], [6, 12], (Code.pushDword, .immediate 29),
        Code.pushDword, .immediate 23))) := by cbv
  obtain ⟨graph, hgraph, hfacts⟩ := exists_discovered _ hrun
  simp only [Option.bind_eq_bind, Option.bind_eq_some_iff, Option.pure_def, Option.some.injEq,
    Prod.mk.injEq] at hfacts
  obtain ⟨node, hnode, input, hinput, low, hlow, high, hhigh, htransfers, htargets, hsources,
    ⟨hlowcode, hlowoperand⟩, hhighcode, hhighoperand⟩ := hfacts
  have hpushes : graph.Pushes 6 29 := ⟨low, hlow, .inl hlowcode, hlowoperand⟩
  refine ⟨graph, node, input, hgraph, hnode, htransfers, htargets, hinput, ⟨?_, hpushes⟩, ?_⟩
  · rw [← OffsetSet.mem_toList, hsources]
    exact List.mem_cons_self
  · intro a ha
    rw [← OffsetSet.mem_toList, hsources, List.mem_pair] at ha
    rcases ha with rfl | rfl
    · exact ⟨29, hpushes⟩
    · exact ⟨23, high, hhigh, .inl hhighcode, hhighoperand⟩

theorem detouring_mem_targets_iff_took :
    ∃ graph node input, detouring.isa = .reference ∧
      (detouring.discover [⟨0, 0⟩]).outcome = .ok graph ∧ graph.get? 11 = some node ∧
      node.opcode.transfersControl = true ∧ node.inputs.getLast? = some input ∧
      (∀ a ∈ input.sources, ∃ word, graph.Pushes a word) ∧
      (∀ t, t ∈ node.targets ↔ ∃ v a, detouring.Took [⟨0, 0⟩] 11 v ∧
        IsGreatest {b | b ∈ v.sources} a ∧ graph.Pushes a t.toUInt64) ∧
      (∀ t ∈ node.targets, ∃ a ∈ input.sources, graph.Pushes a t.toUInt64) ∧
      ∃ t ∈ node.targets, ∃ a, IsGreatest {b | b ∈ input.sources} a ∧
        graph.Pushes a t.toUInt64 := by
  obtain ⟨graph, node, input, hgraph, hnode, htransfers, _, hlast, _, hpushes⟩ := detouring_graph
  exact ⟨graph, node, input, rfl, hgraph, hnode, htransfers, hlast, hpushes,
    mem_targets_iff_took rfl hgraph hnode htransfers hlast hpushes⟩

/-- Not every immediate that a transfer may take is among its targets. -/
theorem detouring_misses_immediate :
    ¬∀ (d : Discovery) (exports : List Export) (graph : Graph), d.isa = .reference →
      (d.discover exports).outcome = .ok graph →
      ∀ offset node input, graph.get? offset = some node → node.opcode.transfersControl = true →
        node.inputs.getLast? = some input →
        (∀ a ∈ input.sources, ∃ word, graph.Pushes a word) →
        ∀ word, (∃ t ∈ node.targets, t.toUInt64 = word) ↔
          ∃ a ∈ input.sources, graph.Pushes a word := by
  intro hall
  obtain ⟨graph, node, input, hgraph, hnode, htransfers, htargets, hlast, hlow, hpushes⟩ :=
    detouring_graph
  obtain ⟨t, ht, hword⟩ := (hall detouring [⟨0, 0⟩] graph rfl hgraph 11 node input hnode htransfers
    hlast hpushes 29).2 ⟨6, hlow⟩
  rw [htargets, List.mem_singleton] at ht
  subst ht
  exact absurd hword (by decide)

end Discovery

end StackLift
