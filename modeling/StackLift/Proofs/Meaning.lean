import StackLift.Proofs.Mirroring
import StackLift.Proofs.Simulation

namespace StackLift

namespace Action

theorem of?_kept {code : UInt8} {opcode : Opcode}
    (hopcode : InstructionSet.reference.opcode? code = some opcode) (operand : Operand) :
    of? code (operand.kept opcode.form) = of? code operand := by
  cases operand with
  | none => cases opcode.form <;> rfl
  | register r => rw [Operand.kept_register]
  | immediate value =>
    cases hform : opcode.form with
    | dword =>
      have hdword : ∀ opcode ∈ InstructionSet.reference.opcodes, opcode.form = .dword →
          opcode.code = Code.pushDword := by decide
      have hcode := hdword opcode (List.mem_of_find?_eq_some hopcode) hform
      rw [InstructionSet.code_of_opcode? hopcode] at hcode
      rw [hcode]
      change some (Action.push (lowDword (lowDword value))) = some (.push (lowDword value))
      rw [lowDword_lowDword]
    | none | register | qword => rfl

theorem eq_of_pushLowRegister {code : UInt8} {operand : Operand} {r : Register}
    (h : of? code operand = some (.pushLowRegister r)) :
    code = Code.pushRegisterDword ∧ operand = .register r := by
  rw [of?.eq_def] at h
  split at h <;> cases h
  exact ⟨rfl, rfl⟩

theorem eq_of_pushRegister {code : UInt8} {operand : Operand} {r : Register}
    (h : of? code operand = some (.pushRegister r)) :
    (code = Code.pushRegisterObject ∨ code = Code.pushRegisterQword) ∧ operand = .register r := by
  rw [of?.eq_def] at h
  split at h <;> cases h
  · exact ⟨.inl rfl, rfl⟩
  · exact ⟨.inr rfl, rfl⟩

theorem eq_of_popRegister {code : UInt8} {operand : Operand} {r : Register}
    (h : of? code operand = some (.popRegister r)) :
    code = Code.pop ∧ operand = .register r := by
  rw [of?.eq_def] at h
  split at h <;> cases h
  exact ⟨rfl, rfl⟩

end Action

theorem Instruction.Performs.kept {i : Instruction} {action : Action} (h : i.Performs action)
    (hopcode : InstructionSet.reference.opcode? i.opcode.code = some i.opcode) :
    i.kept.Performs action :=
  ⟨h.toFalls.kept, (Action.of?_kept hopcode i.operand).trans h.runs, h.popping, h.pushing,
    (i.operand.register?_kept i.opcode.form).trans h.naming⟩

namespace InstructionSet

theorem opcode?_of_lists {i : Instruction} {line : Line} (h : i.Lists .reference line) :
    reference.opcode? i.opcode.code = some i.opcode := by
  rw [code_of_opcode? h.opcode]
  exact h.opcode

end InstructionSet

theorem Machine.run_kept {listing : List Instruction}
    (hperforms : ∀ i ∈ listing, ∃ action, i.Performs action ∧ i.kept.Performs action)
    (m : Machine) : m.run (listing.map Instruction.kept) = m.run listing := by
  induction listing generalizing m with
  | nil => rfl
  | cons i rest ih =>
    obtain ⟨action, hi, hkept⟩ := hperforms i List.mem_cons_self
    have hexecute : m.execute i.kept = m.execute i := by
      rw [execute_eq_perform hkept, execute_eq_perform hi]
      rfl
    have hrest := ih fun j hj => hperforms j (List.mem_cons_of_mem _ hj)
    rw [List.map_cons, run, run, hexecute]
    split
    · exact hrest _
    · rfl

namespace Image

variable {image : Image} {isa : InstructionSet} {key : UInt32}

theorem Lays.sized {start : Nat} {instructions : List Instruction}
    (h : image.Lays isa key start instructions) : ∀ i ∈ instructions, i.Sized := by
  induction h with
  | nil => exact fun _ hi => (nomatch hi)
  | cons hstands _ ih =>
    intro i hi
    rcases List.mem_cons.1 hi with rfl | hi
    · exact hstands.size
    · exact ih i hi

end Image

namespace Graph

variable {graph : Graph}

theorem walkFrom_singleton {a : UInt32} {seen : OffsetSet} (h : a ∉ seen) :
    graph.walkFrom [a] seen =
      a :: graph.walkFrom (graph.ahead a (seen.insert a)) (seen.insert a) := by
  rw [walkFrom, if_neg h, List.append_nil]

/-- Straight code is walked in order. -/
theorem walkFrom_straight {image : Image} {isa : InstructionSet} {key start : UInt32}
    {instructions : List Instruction} {last : Instruction} {nodes : List Node} {seen : OffsetSet}
    (hlays : image.Lays isa key start.toNat (instructions ++ [last]))
    (hnodes : nodes.map Node.toInstruction = instructions ++ [last])
    (hrecorded : ∀ node ∈ nodes, graph.get? node.offset = some node)
    (hfalls : ∀ i ∈ instructions, i.opcode.flow = .next) (hleaves : last.opcode.flow = .leave)
    (hseen : ∀ a ∈ seen, a < start) :
    graph.walkFrom [start] seen = nodes.map fun node => node.offset := by
  -- What was seen lies in front of the offset at which the walk goes on.
  induction instructions generalizing start nodes seen with
  | nil =>
    obtain _ | ⟨hstands, _⟩ := hlays
    obtain ⟨node, rfl, rfl⟩ := List.map_eq_singleton_iff.1 hnodes
    have hoffset : node.offset = start := UInt32.toNat_inj.1 hstands.offset
    have hget := hrecorded node (List.mem_singleton_self node)
    have hnew : start ∉ seen := fun hmem => UInt32.lt_irrefl start (hseen start hmem)
    have hsuccessors : graph.successors start = [] := by
      rw [← hoffset, successors_of_get? hget, Node.successors, hleaves]
    rw [walkFrom_singleton hnew, ahead, hsuccessors, List.filter_nil, List.reverse_nil, walkFrom,
      List.map_singleton, hoffset]
  | cons i rest ih =>
    obtain ⟨node, others, rfl, rfl, hothers⟩ := List.map_eq_cons_iff.1 hnodes
    obtain ⟨hrest, hbelow⟩ := hlays.behind (by simp)
    obtain _ | ⟨hstands, _⟩ := hlays
    have hoffset : node.offset = start := UInt32.toNat_inj.1 hstands.offset
    have hget := hrecorded node List.mem_cons_self
    have hnew : start ∉ seen := fun hmem => UInt32.lt_irrefl start (hseen start hmem)
    have hflow := hfalls _ List.mem_cons_self
    have hsuccessors : graph.successors start = [node.next] := by
      rw [← hoffset, successors_of_get? hget, Node.successors_of_flow hflow]
    have hlt : start < node.next := hoffset ▸ hbelow
    have hbehind : ∀ a ∈ seen.insert start, a < node.next := by
      intro a ha
      rcases OffsetSet.mem_insert.1 ha with rfl | ha
      · exact hlt
      · exact UInt32.lt_trans (hseen a ha) hlt
    have hwalk := ih hrest hothers
      (fun other hother => hrecorded other (List.mem_cons_of_mem _ hother))
      (fun j hj => hfalls j (List.mem_cons_of_mem _ hj)) hbehind
    have hahead : graph.ahead start (seen.insert start) = [node.next] := by
      have hfollowing : node.next ∉ seen.insert start := fun hmem =>
        UInt32.lt_irrefl node.next (hbehind node.next hmem)
      rw [ahead, hsuccessors, List.filter_eq_self.2 (by simpa using hfollowing)]
      rfl
    rw [walkFrom_singleton hnew, hahead, hwalk, List.map_cons, hoffset]

/-- In a graph of straight code that abstracts the machine every slot has a single producer. -/
theorem direct_of_abstracts {start : Machine} {listing : List Instruction} {last : Instruction}
    (hkept : graph.nodes.map Node.toInstruction = (listing ++ [last]).map Instruction.kept)
    (habstracts : ∀ (k : Nat) (node : Node), graph.nodes[k]? = some node →
      ∃ m, node.frame.Abstracts start (listing.take k) m)
    (hinputs : ∀ node ∈ graph.nodes, ∀ v ∈ node.inputs, v ∈ node.frame.stack)
    (hroomy : graph.Roomy) : graph.Direct := by
  refine ⟨fun slot hslot => ?_, hroomy⟩
  obtain ⟨hreader, hinput⟩ := mem_slots_iff.1 hslot
  have hmem := mem_nodes_iff.2 hreader
  obtain ⟨k, hk⟩ := List.mem_iff_getElem?.1 hmem
  obtain ⟨m, hframe⟩ := habstracts k _ hk
  have hcell := hinputs _ hmem slot.input (List.mem_of_getElem? hinput)
  obtain ⟨word, _, source, _, hsource, hpushed, _⟩ := exists_mem_of_forall₂ hframe.stack _ hcell
  obtain ⟨earlier, i, later, _, htake, rfl, hpushes, _⟩ := hpushed
  have hi : i ∈ listing := by
    apply List.mem_of_mem_take (i := k)
    rw [htake]
    exact List.mem_append_right _ List.mem_cons_self
  have hproducer : i.kept ∈ graph.nodes.map Node.toInstruction := by
    rw [hkept]
    exact List.mem_map_of_mem (List.mem_append_left _ hi)
  obtain ⟨producer, hnode, heq⟩ := List.mem_map.1 hproducer
  have hoffset : producer.offset = i.offset := by
    rw [heq]
    rfl
  have hopcode : producer.opcode = i.opcode := by
    rw [heq]
    rfl
  refine ⟨producer, mem_nodes_iff.1 hnode, hoffset ▸ hsource, ?_⟩
  rw [hopcode, hpushes]
  exact Pushes.noConfusion

end Graph

theorem Frame.mem_stack_of_along {f : Frame} {instructions : List Instruction} {nodes : List Node}
    (h : f.along instructions = .ok nodes) :
    ∀ node ∈ nodes, ∀ v ∈ node.inputs, v ∈ node.frame.stack := by
  induction instructions generalizing f nodes with
  | nil =>
    cases h
    exact fun _ hnode => (nomatch hnode)
  | cons i rest ih =>
    obtain ⟨e, others, heffect, hothers, rfl⟩ := along_cons_eq_ok h
    intro node hnode v hv
    rcases List.mem_cons.1 hnode with rfl | hnode
    · obtain ⟨count, _, _, _, _, rfl⟩ := effect_cases heffect
      exact List.mem_of_mem_take (List.mem_reverse.1 hv)
    · exact ih hothers node hnode v hv

/-- No `PUSHR_DWORD` reads a register, but for the instruction pointer, that an earlier `POP`
wrote. -/
def ReadsWhole (lines : List Line) : Prop :=
  lines.Pairwise fun earlier later => ∀ r, r ≠ .ip → earlier = ⟨Code.pop, .register r⟩ →
    later ≠ ⟨Code.pushRegisterDword, .register r⟩

theorem Line.eq_of_lists {i : Instruction} {line : Line} {r : Register}
    (h : i.Lists .reference line) (hoperand : i.kept.operand = .register r) :
    line = ⟨i.opcode.code, .register r⟩ := by
  have hregister : i.operand.register? = some r := by
    rw [← i.operand.register?_kept i.opcode.form, show i.operand.kept _ = _ from hoperand]
    rfl
  obtain ⟨code, operand⟩ := line
  obtain ⟨hopcode, hsame⟩ := h
  obtain rfl : operand = .register r := hsame.symm.trans (Operand.eq_of_register? hregister)
  rw [InstructionSet.code_of_opcode? hopcode]

theorem pairwise_of_lists {listing : List Instruction} {lines : List Line}
    {P : Line → Line → Prop} {O : Instruction → Instruction → Prop}
    (hlists : List.Forall₂ (fun i line => i.Lists .reference line) listing lines)
    (h : lines.Pairwise P) (hP : ∀ (i j : Instruction) (first second : Line),
      i.Lists .reference first → j.Lists .reference second → P first second → O i.kept j.kept) :
    (listing.map Instruction.kept).Pairwise O :=
  List.pairwise_map.2 (pairwise_of_forall₂ hlists h hP)

theorem Line.eq_of_pops {i : Instruction} {line : Line} {r : Register}
    (h : i.Lists .reference line) (hpop : i.kept.Performs (.popRegister r)) :
    line = ⟨Code.pop, .register r⟩ := by
  obtain ⟨hcode, hoperand⟩ := Action.eq_of_popRegister hpop.runs
  rw [Line.eq_of_lists h hoperand, show i.opcode.code = _ from hcode]

theorem lowReads_of_readsWhole {listing : List Instruction} {lines : List Line}
    (hlists : List.Forall₂ (fun i line => i.Lists .reference line) listing lines)
    (h : ReadsWhole lines) (earlier : List Instruction) (i : Instruction)
    (later : List Instruction) (hsplit : listing.map Instruction.kept = earlier ++ i :: later) :
    Mirrors.LowReads Eq earlier i := by
  have hpairs : (listing.map Instruction.kept).Pairwise fun j i => ∀ r, r ≠ .ip →
      j.Performs (.popRegister r) → ¬i.Performs (.pushLowRegister r) := by
    apply pairwise_of_lists hlists h
    intro popped pushed popLine pushLine hpopped hpushed hwhole r hip hpop hpush
    obtain ⟨hcode, hoperand⟩ := Action.eq_of_pushLowRegister hpush.runs
    apply hwhole r hip (Line.eq_of_pops hpopped hpop)
    rw [Line.eq_of_lists hpushed hoperand, show pushed.opcode.code = _ from hcode]
  rw [hsplit, List.pairwise_append] at hpairs
  rintro r hip hpush ⟨j, hj, hpop⟩
  exact absurd hpush (hpairs.2.2 j hj i List.mem_cons_self r hip hpop)

theorem performs_map_kept {listing : List Instruction}
    (h : ∀ i ∈ listing, ∃ action, i.Performs action ∧ i.kept.Performs action) :
    ∀ i ∈ listing.map Instruction.kept, ∃ action, i.Performs action := by
  intro i hi
  obtain ⟨j, hj, rfl⟩ := List.mem_map.1 hi
  obtain ⟨action, _, hkept⟩ := h j hj
  exact ⟨action, hkept⟩

theorem falls_map_kept {listing : List Instruction}
    (h : ∀ i ∈ listing, ∃ action, i.Performs action ∧ i.kept.Performs action) :
    ∀ i ∈ listing.map Instruction.kept, i.Falls := by
  intro i hi
  obtain ⟨action, hperforms⟩ := performs_map_kept h i hi
  exact hperforms.toFalls

/-- The graph holds straight code: instructions that the machine performs, and one that leaves, as
they stand in the image and are recorded along them. -/
structure Graph.Straight (graph : Graph) (image : Image) (key : UInt32) (listing : List Instruction)
    (last : Instruction) : Prop where
  lays : image.Lays .reference key 0 (listing.map Instruction.kept ++ [last.kept])
  performs : ∀ i ∈ listing, ∃ action, i.Performs action ∧ i.kept.Performs action
  flow : last.opcode.flow = .leave
  idle : last.opcode.pops = .none ∧ last.opcode.pushes = .none
  along : (Frame.start 0 key).along (listing.map Instruction.kept ++ [last.kept]) = .ok graph.nodes
  roomy : graph.Roomy

namespace Graph.Straight

variable {graph : Graph} {image : Image} {key : UInt32} {listing : List Instruction}
  {last : Instruction}

theorem agree (h : graph.Straight image key listing last) (registers : RegisterFile UInt64) :
    graph.nodes.map Node.toInstruction = (listing ++ [last]).map Instruction.kept ∧
      ∀ (k : Nat) (node : Node), graph.nodes[k]? = some node →
        ∃ m, node.frame.Abstracts ⟨registers, []⟩ (listing.take k) m := by
  have hperforms : ∀ i ∈ listing, ∃ action, i.Performs action := by
    intro i hi
    obtain ⟨action, haction, _⟩ := h.performs i hi
    exact ⟨action, haction⟩
  have hagree := (Frame.abstracts_start 0 key registers).agree_along rfl hperforms h.idle
  rw [List.map_append, List.map_singleton, h.along] at hagree
  obtain ⟨_, herror, _⟩ | ⟨nodes, _, hnodes, _, hinstructions, habstracts⟩ := hagree
  · cases herror
  · cases hnodes
    rw [List.map_append, List.map_singleton]
    refine ⟨hinstructions, fun k node hnode => ?_⟩
    obtain ⟨m, _, hframe⟩ := habstracts k node hnode
    exact ⟨m, hframe⟩

theorem direct (h : graph.Straight image key listing last) : graph.Direct := by
  obtain ⟨hinstructions, habstracts⟩ := h.agree (.fill 0)
  exact direct_of_abstracts hinstructions habstracts (Frame.mem_stack_of_along h.along) h.roomy

theorem walk_eq (h : graph.Straight image key listing last) :
    graph.walk 0 = graph.nodes.map fun node => node.offset := by
  have hinstructions := (h.agree (.fill 0)).1
  rw [List.map_append, List.map_singleton] at hinstructions
  have hfalls : ∀ i ∈ listing.map Instruction.kept, i.opcode.flow = .next :=
    fun i hi => (falls_map_kept h.performs i hi).flow
  exact walkFrom_straight h.lays hinstructions (fun _ => mem_nodes_iff.1) hfalls h.flow
    fun a ha => absurd ha (OffsetSet.not_mem_empty a)

theorem contains_zero (h : graph.Straight image key listing last) : graph.contains 0 = true := by
  have hmem : (0 : UInt32) ∈ graph.walk 0 :=
    ((graph.mem_walkFrom [0] .empty).1 0 List.mem_cons_self).resolve_left
      (OffsetSet.not_mem_empty 0)
  rw [h.walk_eq] at hmem
  obtain ⟨node, hnode, hoffset⟩ := List.mem_map.1 hmem
  exact contains_iff.2 ⟨node, hoffset ▸ mem_nodes_iff.1 hnode⟩

/-- Evaluating the statements of straight code leaves registers that are related to those that the
machine leaves. -/
theorem run (h : graph.Straight image key listing last) {R : UInt64 → UInt64 → Prop}
    (hR : Congruent R) (hlow : ∀ earlier i later, listing.map Instruction.kept =
      earlier ++ i :: later → Mirrors.LowReads R earlier i)
    (registers : RegisterFile UInt64) {unit : Listing}
    (hbuild : (graph.build 0).outcome = .ok unit) :
    ∃ final env, (Machine.mk registers []).run listing = .ok final ∧
      (Environment.start registers).run unit.statements = .ok env ∧
      ∀ r, r ≠ .ip → R (env.registers.get r) (final.registers.get r) := by
  have hstatements := statements_of_build hbuild
  have hdistinct := (graph.nodup_walkFrom [0] .empty).1
  have hinstructions := (h.agree registers).1
  change (graph.walk 0).Nodup at hdistinct
  rw [h.walk_eq] at hstatements hdistinct
  have hoffsets : ((listing.map Instruction.kept).map Instruction.offset).Nodup := by
    have hmap : graph.nodes.map (fun node => node.offset) =
        (graph.nodes.map Node.toInstruction).map Instruction.offset := by
      rw [List.map_map]
      rfl
    rw [hmap, hinstructions, List.map_append, List.map_append] at hdistinct
    exact (List.nodup_append.1 hdistinct).1
  rw [← Machine.run_kept h.performs]
  exact (Mirrors.start hR.refl graph 0 key registers).run hR h.direct h.along
    (fun _ => mem_nodes_iff.1) h.lays.sized hoffsets (performs_map_kept h.performs) h.flow
    h.idle.2 hlow hstatements

end Graph.Straight

namespace Discovery

variable {lines : List Line} {listing : List Instruction} {last : Instruction} {key : UInt32}
  {graph : Graph}

theorem exists_emitted (hlines : ∀ line ∈ lines, line.Foldable) {ending : Line}
    (hending : InstructionSet.reference.Encodes ending) (key : UInt32) :
    ∃ listing last assembler, (Assembler.start .reference key).emitAll (lines ++ [ending]) =
        .ok (listing ++ [last], assembler) ∧
      List.Forall₂ (fun i line => i.Lists .reference line) listing lines ∧
      last.Lists .reference ending ∧
      (assembler.code.size ≤ UInt32.size →
        assembler.code.Lays .reference key 0 (listing.map Instruction.kept ++ [last.kept])) := by
  have hencodes : ∀ line ∈ lines ++ [ending], InstructionSet.reference.Encodes line := by
    intro line hline
    rcases List.mem_append.1 hline with hline | hline
    · exact (hlines line hline).encodes
    · rw [List.mem_singleton.1 hline]
      exact hending
  obtain ⟨listed, assembler, _, hemit, _, hlists, hlays⟩ :=
    Assembler.emitAll_lays (a := .start .reference key) hencodes
  obtain ⟨listing, last, rfl, hlisting, hlast⟩ := forall₂_concat_right hlists
  rw [List.map_append, List.map_singleton] at hlays
  exact ⟨listing, last, assembler, hemit, hlisting, hlast, hlays⟩

theorem performs_kept_of_lists (hlines : ∀ line ∈ lines, line.Foldable)
    (hlists : List.Forall₂ (fun i line => i.Lists .reference line) listing lines) :
    ∀ i ∈ listing, ∃ action, i.Performs action ∧ i.kept.Performs action := by
  intro i hi
  obtain ⟨action, haction⟩ := performs_of_lists hlists hlines i hi
  obtain ⟨line, _, hline⟩ := exists_mem_of_forall₂ hlists i hi
  exact ⟨action, haction, haction.kept (InstructionSet.opcode?_of_lists hline)⟩

theorem straight_of_discover {d : Discovery} (hisa : d.isa = .reference)
    (hlines : ∀ line ∈ lines, line.Foldable)
    (hlists : List.Forall₂ (fun i line => i.Lists .reference line) listing lines)
    (hlast : last.Lists .reference .ret)
    (hlays : d.image.Lays .reference key 0 (listing.map Instruction.kept ++ [last.kept]))
    (h : (d.discover [⟨0, key⟩]).outcome = .ok graph) :
    graph.Straight d.image key listing last := by
  have hperforms := performs_kept_of_lists hlines hlists
  have hfalls := falls_map_kept hperforms
  have hopcode := (Option.some.inj hlast.opcode).symm
  have hflow : last.opcode.flow = .leave := congrArg Opcode.flow hopcode
  have hplain : last.kept.Plain :=
    ⟨congrArg Opcode.variableArity hopcode, congrArg Opcode.transfersControl hopcode⟩
  have hnodes : (d.discover [⟨0, key⟩]).outcome.map Graph.nodes =
      (Frame.start 0 key).along (listing.map Instruction.kept ++ [last.kept]) :=
    nodes_discover_straight (hisa ▸ hlays) hfalls hplain hflow
  rw [h] at hnodes
  exact ⟨hlays, hperforms, hflow,
    ⟨congrArg Opcode.pops hopcode, congrArg Opcode.pushes hopcode⟩, hnodes.symm,
    (passes_of_discover h).roomy⟩

/-- Lines that the machine can run, and a `RET`, are assembled without failing. If every byte has an
offset of its own and discovery succeeds, what is discovered has a listing, and evaluating its
statements leaves every register but the instruction pointer with the low half that running the
lines leaves there, and with the same word if no push takes the low half of a register that was
popped into. -/
theorem straight_line_means (hlines : ∀ line ∈ lines, line.Foldable) (key : UInt32)
    (folding : Machine) (registers : RegisterFile UInt64) :
    ∃ listing last assembler, (Assembler.start .reference key).emitAll (lines ++ [.ret]) =
        .ok (listing ++ [last], assembler) ∧
      (assembler.code.size ≤ UInt32.size → ∀ graph,
        ((Discovery.mk assembler.code .reference folding).discover [⟨0, key⟩]).outcome =
          .ok graph →
        ∃ unit final env, (graph.build 0).outcome = .ok unit ∧
          (Machine.mk registers []).run listing = .ok final ∧
          (Environment.start registers).run unit.statements = .ok env ∧
          (∀ r, r ≠ .ip → lowDword (env.registers.get r) = lowDword (final.registers.get r)) ∧
          (ReadsWhole lines → ∀ r, r ≠ .ip → env.registers.get r = final.registers.get r)) := by
  have hret : InstructionSet.reference.Encodes .ret := ⟨_, 0, rfl, rfl⟩
  obtain ⟨listing, last, assembler, hemit, hlists, hlast, hlays⟩ := exists_emitted hlines hret key
  refine ⟨listing, last, assembler, hemit, fun hsize graph hgraph => ?_⟩
  have hstraight : graph.Straight assembler.code key listing last :=
    straight_of_discover rfl hlines hlists hlast (hlays hsize) hgraph
  obtain ⟨unit, hbuild⟩ := (passes_of_discover hgraph).build_ok hstraight.contains_zero
  have hlow : ∀ earlier i later, listing.map Instruction.kept = earlier ++ i :: later →
      Mirrors.LowReads (fun a b => lowDword a = lowDword b) earlier i :=
    fun _ _ _ _ _ _ _ _ _ b hab => hab.trans (lowDword_lowDword b).symm
  obtain ⟨final, env, hfinal, henv, hregisters⟩ :=
    hstraight.run congruent_lowDword hlow registers hbuild
  refine ⟨unit, final, env, hbuild, hfinal, henv, hregisters, fun hwhole => ?_⟩
  obtain ⟨final', env', hfinal', henv', hsame⟩ :=
    hstraight.run congruent_eq (lowReads_of_readsWhole hlists hwhole) registers hbuild
  rw [hfinal] at hfinal'
  rw [henv] at henv'
  cases hfinal'
  cases henv'
  exact hsame

/-- `PUSHI_QWORD 0x100000005; POP R1; PUSHI_DWORD 3; PUSHR_DWORD R2; MUL_DWORD; PUSHR_QWORD R1;
ADD_QWORD; POP R3`, in which the product is inlined into the sum, behind a push of a register. -/
def totalling : List Line :=
  [⟨Code.pushQword, .immediate 0x100000005⟩, ⟨Code.pop, .register .r1⟩,
    ⟨Code.pushDword, .immediate 3⟩, ⟨Code.pushRegisterDword, .register .r2⟩,
    ⟨Code.mulDword, .none⟩, ⟨Code.pushRegisterQword, .register .r1⟩, ⟨Code.addQword, .none⟩,
    ⟨Code.pop, .register .r3⟩]

def totallingImage : Image :=
  (maskBytes 7 0 [0x05, 5, 0, 0, 0, 1, 0, 0, 0, 0x06, 1, 0x04, 3, 0, 0, 0, 0x02, 2, 0x13, 0x03, 1,
    0x11, 0x06, 3, 0x34]).toArray

theorem totalling_means :
    (∀ line ∈ totalling, line.Foldable) ∧ ReadsWhole totalling ∧
      ∃ listing last assembler graph unit final env,
        (Assembler.start .reference 7).emitAll (totalling ++ [.ret]) =
          .ok (listing ++ [last], assembler) ∧ assembler.code.size ≤ UInt32.size ∧
        ((Discovery.mk assembler.code .reference (.ofPresets [])).discover [⟨0, 7⟩]).outcome =
          .ok graph ∧ graph.placement.inlined.toList = [11, 18] ∧
        (graph.build 0).outcome = .ok unit ∧
        (Machine.mk (.fill 9) []).run listing = .ok final ∧
        (Environment.start (.fill 9)).run unit.statements = .ok env ∧
        ∀ r, r ≠ .ip → env.registers.get r = final.registers.get r := by
  have hlines : ∀ line ∈ totalling, line.Foldable := by
    simp only [totalling, List.forall_mem_cons]
    refine ⟨?_, ?_, ?_, ?_, ?_, ?_, ?_, ?_, fun _ hline => (nomatch hline)⟩ <;>
      exact ⟨_, _, _, rfl, rfl, rfl⟩
  have hwhole : ReadsWhole totalling := by
    have hother : ∀ r, r ≠ Register.ip → Register.r1 = r → ¬Register.r2 = r := by
      rintro _ _ rfl h
      cases h
    simpa +decide [ReadsWhole, totalling] using hother
  have hcode : ((Assembler.start .reference 7).emitAll (totalling ++ [.ret])).map
      (fun emitted => emitted.2.code) = .ok totallingImage := by decide +kernel
  have hrun : ((Discovery.mk totallingImage .reference (.ofPresets [])).discoverWithin 20
      [⟨0, 7⟩]).map (fun outcome => outcome.map fun graph => graph.placement.inlined.toList) =
      some (.ok [11, 18]) := by cbv
  obtain ⟨graph, hgraph, hinlined⟩ := exists_discovered _ hrun
  obtain ⟨listing, last, assembler, hemit, hmeans⟩ :=
    straight_line_means hlines 7 (.ofPresets []) (.fill 9)
  rw [hemit] at hcode
  have himage : assembler.code = totallingImage := Except.ok.inj hcode
  have hfits : assembler.code.size ≤ UInt32.size := by
    rw [himage]
    decide
  rw [← himage] at hgraph
  obtain ⟨unit, final, env, hbuild, hfinal, henv, _, hsame⟩ := hmeans hfits graph hgraph
  exact ⟨hlines, hwhole, listing, last, assembler, graph, unit, final, env, hemit, hfits, hgraph,
    hinlined, hbuild, hfinal, henv, hsame hwhole⟩

end Discovery

end StackLift
