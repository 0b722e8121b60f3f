import StackLift.Proofs.Folding

namespace StackLift

def Instruction.Reads (i : Instruction) (r : Register) : Prop :=
  ∃ action, i.Performs action ∧ action.pushes = .one ∧ action.register? = some r

def Line.reads (r : Register) : List Line :=
  [⟨Code.pushRegisterObject, .register r⟩, ⟨Code.pushRegisterDword, .register r⟩,
    ⟨Code.pushRegisterQword, .register r⟩]

/-- No `PUSHR` reads a register, but for the instruction pointer, that an earlier `POP` wrote. -/
def ReadsUnwritten (lines : List Line) : Prop :=
  lines.Pairwise fun earlier later => ∀ r, r ≠ .ip → earlier = ⟨Code.pop, .register r⟩ →
    later ∉ Line.reads r

/-- No instruction reads a register, but for the instruction pointer, that an earlier one pops
into. -/
def Instruction.Unwritten (instructions : List Instruction) : Prop :=
  instructions.Pairwise fun earlier later => ∀ r, r ≠ .ip → earlier.Performs (.popRegister r) →
    ¬later.Reads r

theorem Line.mem_reads_of_lists {i : Instruction} {line : Line} {r : Register}
    (h : i.Lists .reference line) (hreads : i.kept.Reads r) : line ∈ Line.reads r := by
  obtain ⟨action, hperforms, hpushes, hregister⟩ := hreads
  have hcode : i.kept.opcode.code = i.opcode.code := rfl
  cases action with
  | pushRegister s =>
    cases hregister
    obtain ⟨hcodes, hoperand⟩ := Action.eq_of_pushRegister hperforms.runs
    rw [Line.eq_of_lists h hoperand, ← hcode]
    rcases hcodes with hobject | hqword
    · simp [Line.reads, hobject]
    · simp [Line.reads, hqword]
  | pushLowRegister s =>
    cases hregister
    obtain ⟨hdword, hoperand⟩ := Action.eq_of_pushLowRegister hperforms.runs
    rw [Line.eq_of_lists h hoperand, ← hcode]
    simp [Line.reads, hdword]
  | popRegister s => cases hpushes
  | idle | push | arithmetic => cases hregister

theorem unwritten_of_lists {listing : List Instruction} {lines : List Line}
    (hlists : List.Forall₂ (fun i line => i.Lists .reference line) listing lines)
    (h : ReadsUnwritten lines) : Instruction.Unwritten (listing.map Instruction.kept) := by
  apply pairwise_of_lists hlists h
  intro popped pushed popLine pushLine hpopped hpushed hunwritten r hip hpop hreads
  exact hunwritten r hip (Line.eq_of_pops hpopped hpop) (Line.mem_reads_of_lists hpushed hreads)

variable {graph : Graph} {bound : UInt32} {f : Frame} {v : Provenance} {node : Node}
  {action : Action} {e : Effect}

/-- What each cell rests on has its operands in order and stands in front of the bound, and what a
deeper cell rests on stands before it. -/
structure Frame.Stacks (f : Frame) (graph : Graph) (bound : UInt32) : Prop where
  ordered : ∀ v ∈ f.stack, graph.ordered v = true
  below : ∀ v ∈ f.stack, ∀ a ∈ graph.rests v, a < bound
  sorted : f.stack.Pairwise fun upper lower => graph.before lower upper = true

/-- What the instruction reads, but for the instruction pointer, is as on entry. -/
def Frame.Untouched (f : Frame) (i : Instruction) : Prop :=
  ∀ r, r ≠ .ip → i.Reads r → (f.registers.get r).isEntry = true

theorem Frame.untouched_start (ip key : UInt32) (i : Instruction) :
    (Frame.start ip key).Untouched i := by
  intro r _ _
  rw [Frame.start, RegisterFile.get_fill]
  rfl

theorem Frame.get_effect {i : Instruction} {r : Register} (hi : i.Performs action)
    (heffect : f.effect i none = .ok e) (hip : r ≠ .ip) (hpop : action ≠ .popRegister r) :
    e.frame.registers.get r = f.registers.get r := by
  obtain ⟨count, kind, hcount, _, hle, rfl⟩ := effect_cases heffect
  have hbehind : ((f.behindPops i count).behindPush i kind).registers =
      (f.behindPops i count).registers := by
    cases kind <;> rfl
  rw [hbehind]
  rcases eq_or_ne action.pops .one with hpops | hpops
  · obtain ⟨s, rfl⟩ : ∃ s, action = .popRegister s := by
      cases action <;> first | exact ⟨_, rfl⟩ | cases hpops
    rw [hi.popping] at hcount
    cases hcount
    obtain ⟨v, below, hstack⟩ := List.exists_cons_of_length_pos hle
    have hne : r ≠ s := fun heq => hpop (heq ▸ rfl)
    rw [registers_behindPops_pop hi.poppedRegister?_eq hstack, RegisterFile.get_set_of_ne _ _ hne,
      RegisterFile.get_set_of_ne _ _ hip]
  · rw [registers_behindPops f (hi.poppedRegister?_eq.trans (if_neg hpops)),
      RegisterFile.get_set_of_ne _ _ hip]

theorem Frame.Untouched.behind {i j : Instruction} (h : f.Untouched j) (hi : i.Performs action)
    (heffect : f.effect i none = .ok e)
    (hunwritten : ∀ r, r ≠ .ip → i.Performs (.popRegister r) → ¬j.Reads r) :
    e.frame.Untouched j := by
  intro r hip hreads
  rw [get_effect hi heffect hip]
  · exact h r hip hreads
  · rintro rfl
    exact hunwritten r hip hi hreads

namespace Frame.Stacks

theorem start (graph : Graph) (ip key : UInt32) : (Frame.start ip key).Stacks graph bound :=
  ⟨fun _ hv => (nomatch hv), fun _ hv => (nomatch hv), .nil⟩

theorem drop (h : f.Stacks graph bound) {g : Frame} {count : Nat}
    (hg : g.stack = f.stack.drop count) : g.Stacks graph bound := by
  constructor
  · rw [hg]
    exact fun v hv => h.ordered v (List.mem_of_mem_drop hv)
  · rw [hg]
    exact fun v hv => h.below v (List.mem_of_mem_drop hv)
  · rw [hg]
    exact h.sorted.drop

theorem moveTo (h : f.Stacks graph bound) (ip : UInt32) : (f.moveTo ip).Stacks graph bound :=
  ⟨h.ordered, h.below, h.sorted⟩

theorem mono (h : f.Stacks graph bound) {later : UInt32} (hlt : bound < later) :
    f.Stacks graph later :=
  ⟨h.ordered, fun v hv a ha => UInt32.lt_trans (h.below v hv a ha) hlt, h.sorted⟩

theorem push (h : f.Stacks graph node.offset) (hnode : graph.get? node.offset = some node)
    (hv : v.sources = .singleton node.offset) (hinOrder : graph.inOrder node = true)
    (hordered : ∀ input ∈ node.inputs, graph.ordered input = true)
    (hbelow : ∀ input ∈ node.inputs, ∀ a ∈ graph.rests input, a < node.offset)
    (hbefore : ∀ input ∈ node.inputs, ∀ lower ∈ f.stack, graph.before lower input = true)
    (hlt : node.offset < bound) : (f.push v).Stacks graph bound := by
  have hmem := fun a => Graph.mem_rests_of_node (b := a) hnode hv
  have hlater := h.mono hlt
  refine ⟨?_, ?_, List.pairwise_cons.2 ⟨?_, h.sorted⟩⟩
  · intro w hw
    rcases List.mem_cons.1 hw with rfl | hw
    · rw [Graph.ordered_iff]
      intro a ha other hother
      rcases (hmem a).1 ha with rfl | ⟨input, hinput, ha⟩
      · rw [hnode] at hother
        cases hother
        exact hinOrder
      · exact Graph.ordered_iff.1 (hordered input hinput) a ha other hother
    · exact hlater.ordered w hw
  · intro w hw
    rcases List.mem_cons.1 hw with rfl | hw
    · intro a ha
      rcases (hmem a).1 ha with rfl | ⟨input, hinput, ha⟩
      · exact hlt
      · exact UInt32.lt_trans (hbelow input hinput a ha) hlt
    · exact hlater.below w hw
  · intro lower hlower
    rw [Graph.before_iff]
    intro a ha b hb
    rcases (hmem b).1 hb with rfl | ⟨input, hinput, hb⟩
    · exact h.below lower hlower a ha
    · exact Graph.before_iff.1 (hbefore input hinput lower hlower) a ha b hb

section

variable (h : node.frame.Stacks graph node.offset) (hmeets : Traces.Meets graph node e)
include h hmeets

theorem step_of_push (hi : node.Performs action) (hpushes : action.pushes = .one) {count : Nat}
    (hcount : node.opcode.pops.count? none = some count)
    (huntouched : node.frame.Untouched node.toInstruction)
    (hinOrder : graph.inOrder node = true) : e.frame.Stacks graph node.next := by
  have hregister := hi.poppedRegister?_eq_none hpushes
  obtain ⟨count', kind, hcount', hkind, _, heffect⟩ := effect_cases hmeets.effect
  rw [hcount] at hcount'
  rw [hi.pushing.trans hpushes] at hkind
  cases hcount'
  cases hkind
  have hinputs : node.inputs = (node.frame.stack.take count).reverse := by
    rw [hmeets.inputs, heffect]
  have hstack : (node.frame.behindPops node.toInstruction count).stack =
      node.frame.stack.drop count := stack_behindPops ..
  have hcell : ∀ input ∈ node.inputs, input ∈ node.frame.stack.take count := by
    intro input hinput
    rw [hinputs] at hinput
    exact List.mem_reverse.1 hinput
  have hsorted := h.sorted
  rw [← List.take_append_drop count node.frame.stack, List.pairwise_append] at hsorted
  have hv : ((node.frame.behindPops node.toInstruction count).pushed node.toInstruction
      node.opcode.kind).sources = .singleton node.offset := by
    rcases pushed_cases node.frame hregister count node.opcode.kind with
      ⟨⟨kind, hpushed⟩, _⟩ | ⟨r, hr, hip, hknown, _⟩
    · rw [hpushed]
      rfl
    · have hnames : action.register? = some r := by
        rw [← hi.naming, hr]
        rfl
      rw [huntouched r hip ⟨action, hi, hpushes, hnames⟩] at hknown
      cases hknown
  rw [heffect]
  apply (h.drop hstack).push hmeets.recorded hv hinOrder
  · exact fun input hinput => h.ordered input (List.mem_of_mem_take (hcell input hinput))
  · exact fun input hinput => h.below input (List.mem_of_mem_take (hcell input hinput))
  · intro input hinput lower hlower
    rw [hstack] at hlower
    exact hsorted.2.2 input (hcell input hinput) lower hlower
  · exact hmeets.lt_next

theorem inOrder_of_arithmetic {operation : Arithmetic}
    (hi : node.Performs (.arithmetic operation)) : graph.inOrder node = true := by
  obtain ⟨count, _, hcount, _, hle, heffect⟩ := effect_cases hmeets.effect
  rw [hi.popping] at hcount
  cases hcount
  have hinputs : node.inputs = (node.frame.stack.take 2).reverse := by
    rw [hmeets.inputs, heffect]
  have hsorted := h.sorted
  rcases hframe : node.frame.stack with _ | ⟨right, _ | ⟨left, below⟩⟩
  · exact absurd hle (by simp [depth, hframe])
  · exact absurd hle (by simp [depth, hframe])
  · rw [hframe] at hinputs hsorted
    have hbefore : graph.before left right = true :=
      (List.pairwise_cons.1 hsorted).1 left List.mem_cons_self
    have hpair : node.inputs = [left, right] := hinputs
    simp only [Graph.inOrder, hi.runs, hpair, hbefore, Bool.true_or]

/-- An instruction that the machine performs, and that reads no register which was written, keeps
the cells in order. -/
theorem step (hi : node.Performs action)
    (huntouched : node.frame.Untouched node.toInstruction) :
    e.frame.Stacks graph node.next := by
  have hcount : node.opcode.pops.count? none = action.pops.count? none := by
    rw [hi.popping]
  cases action with
  | idle | popRegister =>
    obtain ⟨count, kind, _, hkind, _, heffect⟩ := effect_cases hmeets.effect
    rw [hi.pushing] at hkind
    cases hkind
    rw [heffect]
    exact (h.drop (stack_behindPops ..)).mono hmeets.lt_next
  | pushRegister | pushLowRegister | push =>
    apply h.step_of_push hmeets hi rfl hcount huntouched
    rw [Graph.inOrder, hi.runs]
  | arithmetic operation =>
    exact h.step_of_push hmeets hi rfl hcount huntouched (h.inOrder_of_arithmetic hmeets hi)

end

/-- Along straight code that reads no register which it wrote, the cells stay in order, and what an
instruction reads is as on entry. -/
theorem run {image : Image} {isa : InstructionSet} {key : UInt32} {instructions : List Instruction}
    {last : Instruction} {nodes : List Node} (h : f.Stacks graph f.ip)
    (hlays : image.Lays isa key f.ip.toNat (instructions ++ [last]))
    (hperforms : ∀ i ∈ instructions, ∃ action, i.Performs action)
    (hunwritten : Instruction.Unwritten instructions)
    (huntouched : ∀ i ∈ instructions, f.Untouched i) (hlast : ∀ r, ¬last.Reads r)
    (halong : f.along (instructions ++ [last]) = .ok nodes)
    (hrecorded : ∀ node ∈ nodes, graph.get? node.offset = some node) :
    ∀ node ∈ nodes, node.frame.Stacks graph node.offset ∧
      node.frame.Untouched node.toInstruction := by
  induction instructions generalizing f nodes with
  | nil =>
    obtain ⟨e, others, heffect, hothers, rfl⟩ := along_cons_eq_ok halong
    obtain _ | ⟨hstands, _⟩ := hlays
    have hoffset : last.offset = f.ip := UInt32.toNat_inj.1 hstands.offset
    cases hothers
    intro node hnode
    rw [List.mem_singleton.1 hnode]
    refine ⟨?_, fun r _ hreads => absurd hreads (hlast r)⟩
    change f.Stacks graph last.offset
    rw [hoffset]
    exact h
  | cons i rest ih =>
    obtain ⟨e, others, rfl, hoffset, hmeets, hrest, hothers, hrecorded⟩ :=
      Traces.exists_meets hlays halong hrecorded
    obtain ⟨action, hi⟩ := hperforms i List.mem_cons_self
    obtain ⟨hlater, hunwritten⟩ := List.pairwise_cons.1 hunwritten
    let reached : Node := ⟨i, f, e.popped, .nothing⟩
    have hstacks : reached.frame.Stacks graph reached.offset := by
      change f.Stacks graph i.offset
      rw [hoffset]
      exact h
    have hread := huntouched i List.mem_cons_self
    have hmoved := ih ((hstacks.step hmeets hi hread).moveTo i.next) hrest
      (fun j hj => hperforms j (List.mem_cons_of_mem _ hj)) hunwritten
      (fun j hj =>
        (huntouched j (List.mem_cons_of_mem _ hj)).behind hi hmeets.effect (hlater j hj))
      hothers hrecorded
    intro node hnode
    rcases List.mem_cons.1 hnode with rfl | hnode
    · exact ⟨hstacks, hread⟩
    · exact hmoved node hnode

end Frame.Stacks

theorem Graph.whole_of_untouched {P : UInt32 → Prop} {m : Machine} {listing : List Instruction}
    {last : Instruction}
    (hperforms : ∀ i ∈ listing, ∃ action, i.Performs action ∧ i.kept.Performs action)
    (hlisted : graph.nodes.map Node.toInstruction = listing.map Instruction.kept ++ [last])
    (huntouched : ∀ node ∈ graph.nodes, node.frame.Untouched node.toInstruction) :
    graph.Whole P m listing := by
  rintro k i _ r node hi _ haction hip hget ⟨a, ha, _⟩
  have hmem : i ∈ listing := List.mem_of_getElem? hi
  obtain ⟨action, hperform, hkept⟩ := hperforms i hmem
  have hlow : action = .pushLowRegister r := Option.some.inj (hperform.runs.symm.trans haction)
  have hnode : i.kept ∈ graph.nodes.map Node.toInstruction := by
    rw [hlisted]
    exact List.mem_append_left _ (List.mem_map_of_mem hmem)
  obtain ⟨recorded, hrecorded, heq⟩ := List.mem_map.1 hnode
  have hoffset : recorded.offset = i.offset := by
    rw [heq]
    rfl
  have hsame : recorded = node := by
    have hself := mem_nodes_iff.1 hrecorded
    rw [hoffset, hget] at hself
    exact (Option.some.inj hself).symm
  have hreads : node.Reads r := by
    rw [← hsame, heq]
    exact ⟨action, hkept, hlow ▸ rfl, hlow ▸ rfl⟩
  have hentry := huntouched node (hsame ▸ hrecorded) r hip hreads
  rw [Provenance.isEntry_eq_false_of_mem ha] at hentry
  cases hentry

structure Opcode.Jumps (opcode : Opcode) : Prop where
  popping : opcode.pops = .one
  pushing : opcode.pushes = .none
  flow : opcode.flow = .jump

namespace Opcode.Jumps

variable {opcode : Opcode} (h : opcode.Jumps)
include h

theorem fixed : opcode.variableArity = false := by
  rw [variableArity_eq_false_iff, h.popping, h.pushing]
  exact ⟨Pops.noConfusion, Pushes.noConfusion⟩

theorem transfers : opcode.transfersControl = true := by
  rw [transfersControl, h.flow]

end Opcode.Jumps

theorem Instruction.not_reads {i : Instruction} (h : i.opcode.pops = .one) (r : Register) :
    ¬i.Reads r := by
  rintro ⟨action, hi, hpushes, hregister⟩
  have hpops := hi.popping
  rw [h] at hpops
  cases action with
  | popRegister => cases hpushes
  | _ => cases hpops

theorem Line.jumps_of_lists {i : Instruction} (h : i.Lists .reference .jump) : i.opcode.Jumps := by
  have hopcode := Option.some.inj h.opcode
  rw [← hopcode]
  exact ⟨rfl, rfl, rfl⟩

namespace Discovery

/-- The visit in which the node consumed its input records the target as its only one, and takes the
frame there. -/
def GoesTo (d : Discovery) (exports : List Export) (graph : Graph) (node : Node)
    (target : UInt32) : Prop :=
  ∃ rest found frame waiting behind, d.Stage exports rest ⟨found, frame :: waiting⟩ ∧
    graph = found.insert node ∧ (d.visit found frame).outcome =
      .ok (found.insert { node with inferred := .targets (.singleton target) },
        [Frame.moveTo behind target])

/-- The transfer at the offset is found, and folds its target to the word on its first visit. It
goes to a word that is an offset, which stays among its targets. With any other the discovery fails
there. -/
structure FoldsTo (d : Discovery) (exports : List Export) (offset : UInt32) (word : UInt64) :
    Prop where
  visited : ∃ graph node, d.FirstVisit exports graph node ∧ node.offset = offset
  folds : ∀ graph node, d.FirstVisit exports graph node → node.offset = offset →
    ∃ input, node.inputs = [input] ∧ d.fold graph input = .ok word
  goes : word.toNat < UInt32.size → ∀ graph node, d.FirstVisit exports graph node →
    node.offset = offset → d.GoesTo exports graph node word.toUInt32
  keeps : word.toNat < UInt32.size → ∀ graph, (d.discover exports).outcome = .ok graph →
    ∃ node, graph.get? offset = some node ∧ word.toUInt32 ∈ node.targets
  fails : UInt32.size ≤ word.toNat →
    (d.discover exports).outcome = .error (.unresolvedTarget offset (.outOfRange word))

variable {d : Discovery} {exports : List Export} {lines : List Line} {listing : List Instruction}
  {last : Instruction} {key offset target : UInt32} {registers : RegisterFile UInt64}
  {final : Machine} {input : Provenance} {word : UInt64}

theorem target_of_fold (hinputs : node.inputs = [input]) (hfold : d.fold graph input = .ok word) :
    d.target graph node = if word.toNat < UInt32.size then .ok word.toUInt32
      else .error (.unresolvedTarget node.offset (.outOfRange word)) := by
  simp only [Discovery.target, hinputs, List.getLast?_singleton, hfold]

theorem FirstVisit.goesTo (h : d.FirstVisit exports graph node) (hjumps : node.opcode.Jumps)
    (htarget : d.target graph node = .ok target) : d.GoesTo exports graph node target := by
  obtain ⟨rest, found, frame, waiting, behind, hstage, hgraph, hvisit⟩ :=
    h.visit_of_target hjumps.fixed hjumps.transfers htarget
  refine ⟨rest, found, frame, waiting, behind, hstage, hgraph, ?_⟩
  rw [hvisit, Node.successors, hjumps.flow]
  rfl

theorem GoesTo.mem_targets (h : d.GoesTo exports graph node target)
    (hfixed : node.opcode.variableArity = false) {final : Graph}
    (hfinal : (d.discover exports).outcome = .ok final) :
    ∃ later, final.get? node.offset = some later ∧ target ∈ later.targets := by
  obtain ⟨rest, found, frame, waiting, behind, hstage, _, hvisit⟩ := h
  have hknown := Graph.get?_insert_self found
    { node with inferred := .targets (.singleton target) }
  obtain ⟨later, hlater, hgrown⟩ := (hstage.visit hvisit).extends hfinal node.offset _ hknown
  exact ⟨later, hlater, hgrown.targets hfixed _ (OffsetSet.mem_singleton.2 rfl)⟩

theorem foldsTo_of_fold
    (hvisited : ∃ graph node, d.FirstVisit exports graph node ∧ node.offset = offset)
    (hfolds : ∀ graph node, d.FirstVisit exports graph node → node.offset = offset →
      node.opcode.Jumps ∧ ∃ input, node.inputs = [input] ∧ d.fold graph input = .ok word) :
    d.FoldsTo exports offset word := by
  have hgoes : word.toNat < UInt32.size → ∀ graph node, d.FirstVisit exports graph node →
      node.offset = offset → d.GoesTo exports graph node word.toUInt32 := by
    intro hlt graph node hfirst hnode
    obtain ⟨hjumps, input, hinputs, hfold⟩ := hfolds graph node hfirst hnode
    apply hfirst.goesTo hjumps
    rw [target_of_fold hinputs hfold, if_pos hlt]
  obtain ⟨graph, node, hfirst, hnode⟩ := hvisited
  obtain ⟨hjumps, input, hinputs, hfold⟩ := hfolds graph node hfirst hnode
  refine ⟨⟨graph, node, hfirst, hnode⟩, fun graph node hfirst hnode =>
    (hfolds graph node hfirst hnode).2, hgoes, ?_, ?_⟩
  · intro hlt final hfinal
    rw [← hnode]
    exact (hgoes hlt graph node hfirst hnode).mem_targets hjumps.fixed hfinal
  · intro hle
    have htoo : d.target graph node = .error (.unresolvedTarget offset (.outOfRange word)) := by
      rw [target_of_fold hinputs hfold, if_neg (Nat.not_lt_of_le hle), hnode]
    exact hfirst.discover_of_target hjumps.fixed hjumps.transfers htoo

section

variable (hlays : d.image.Lays d.isa key 0 (listing.map Instruction.kept ++ [last.kept]))
  (hperforms : ∀ i ∈ listing, ∃ action, i.Performs action ∧ i.kept.Performs action)
  (hjumps : last.opcode.Jumps)
include hlays hperforms hjumps

/-- What a jump consumes on its first visit folds to what the machine has on top, if the code in
front of it reads no register which it wrote. -/
theorem FirstVisit.fold_top (hunwritten : Instruction.Unwritten (listing.map Instruction.kept))
    (hmachine : d.machine.Resumes ⟨registers, []⟩)
    (hrun : (Machine.mk registers []).run listing = .ok final)
    (h : d.FirstVisit [⟨0, key⟩] graph node) (hnode : node.offset = last.kept.offset) :
    ∃ input top rest, node.inputs = [input] ∧ final.stack = top :: rest ∧
      d.fold graph input = .ok top := by
  have hfalls := falls_map_kept hperforms
  obtain ⟨halong, hlast⟩ := h.along hlays hfalls hnode
  have hinstruction := h.toInstruction_eq hlays hfalls hnode
  have hopcode : node.opcode = last.opcode := by
    rw [hinstruction]
    rfl
  obtain ⟨input, hinputs⟩ := h.exists_input (hopcode ▸ hjumps.popping)
  have hinput : node.inputs.getLast? = some input := by
    rw [hinputs]
    rfl
  have hstacks := (Frame.Stacks.start graph 0 key).run hlays (performs_map_kept hperforms)
    hunwritten (fun i _ => Frame.untouched_start 0 key i) (Instruction.not_reads hjumps.popping)
    halong fun _ => Graph.mem_nodes_iff.1
  have hwhole : graph.Whole (fun _ => True) ⟨registers, []⟩ listing :=
    Graph.whole_of_untouched hperforms (Frame.map_toInstruction_along halong)
      fun other hother => (hstacks other hother).2
  obtain ⟨top, rest, hstack, given, heval, _, _, hsame⟩ := h.derives hlays hperforms
    hjumps.popping hnode hinput (fun _ _ _ _ _ _ _ => trivial) hwhole hrun
  have hmem : node ∈ graph.nodes := List.mem_of_getLast? hlast
  have hordered : graph.ordered input = true := by
    apply (hstacks node hmem).1.ordered
    exact Frame.mem_stack_of_along halong node hmem input (List.mem_of_getLast? hinput)
  refine ⟨input, top, rest, hinputs, hstack, ?_⟩
  rw [hsame fun _ _ => trivial]
  exact heval.fold_eq hordered hmachine

theorem exists_firstVisit_of_run (hrun : (Machine.mk registers []).run listing = .ok final)
    (hstack : final.stack ≠ []) :
    ∃ graph node, d.FirstVisit [⟨0, key⟩] graph node ∧ node.offset = last.kept.offset := by
  have hactions : ∀ i ∈ listing, ∃ action, i.Performs action :=
    fun i hi => (hperforms i hi).imp fun _ haction => haction.1
  have heffect : ∀ (g : Frame) (m : Machine), (Machine.mk registers []).run listing = .ok m →
      g.depth = m.stack.length → ∃ e, g.effect last none = .ok e := by
    intro g m hm hdepth
    obtain rfl : final = m := Except.ok.inj (hrun.symm.trans hm)
    have hcount : last.opcode.pops.count? none = some 1 := by
      rw [hjumps.popping]
      rfl
    have hkind : last.opcode.pushes.kind? last.opcode.kind none = some none := by
      rw [hjumps.pushing]
      rfl
    have hpos : 1 ≤ g.depth := by
      rw [hdepth]
      exact List.length_pos_of_ne_nil hstack
    exact ⟨_, Frame.effect_plain hcount hkind hpos⟩
  have hagree := (Frame.abstracts_start 0 key registers).agree_along_of_effect rfl hactions heffect
  rw [List.map_append, List.map_singleton, hrun] at hagree
  obtain ⟨_, _, herror⟩ | ⟨nodes, _, halong, _⟩ := hagree
  · cases herror
  · obtain ⟨node, hfirst, hlast, _⟩ :=
      exists_firstVisit ⟨0, key⟩ hlays (falls_map_kept hperforms) halong
    exact ⟨_, node, hfirst, congrArg Instruction.offset hlast⟩

end

/-- Lines that the machine can run, of which none pushes a register that an earlier one popped into,
and a `JMP` are assembled without failing. If every byte has an offset of its own, and the machine
runs the lines and has a word on top, the `JMP` folds its target to that word. -/
theorem jump_folds_to_top (hlines : ∀ line ∈ lines, line.Foldable) (hreads : ReadsUnwritten lines)
    (key : UInt32) (registers : RegisterFile UInt64) :
    ∃ listing last assembler, (Assembler.start .reference key).emitAll (lines ++ [.jump]) =
        .ok (listing ++ [last], assembler) ∧
      (assembler.code.size ≤ UInt32.size →
        let d : Discovery := ⟨assembler.code, .reference, ⟨registers, []⟩⟩
        ∀ final word below, d.machine.run listing = .ok final → final.stack = word :: below →
        d.FoldsTo [⟨0, key⟩] last.offset word) := by
  obtain ⟨listing, last, assembler, hemit, hlists, hlast, hlays⟩ :=
    exists_emitted hlines Line.encodes_jump key
  refine ⟨listing, last, assembler, hemit, ?_⟩
  intro hsize d final word below hrun hstack
  have hlays : d.image.Lays d.isa key 0 (listing.map Instruction.kept ++ [last.kept]) :=
    hlays hsize
  have hperforms := performs_kept_of_lists hlines hlists
  have hjumps := Line.jumps_of_lists hlast
  have hne : final.stack ≠ [] := hstack ▸ List.cons_ne_nil word below
  apply foldsTo_of_fold (exists_firstVisit_of_run hlays hperforms hjumps hrun hne)
  intro graph node hfirst hnode
  have hinstruction := hfirst.toInstruction_eq hlays (falls_map_kept hperforms) hnode
  obtain ⟨input, top, rest, hinputs, htop, hfold⟩ := hfirst.fold_top hlays hperforms hjumps
    (unwritten_of_lists hlists hreads) (fun _ _ => rfl) hrun hnode
  rw [hstack] at htop
  cases htop
  refine ⟨?_, input, hinputs, hfold⟩
  rw [hinstruction]
  exact hjumps

/-- `PUSHI_DWORD 7; PUSHI_DWORD 40; PUSHI_QWORD 5; POP R0; PUSHI_DWORD 9; PUSHR_DWORD R1;
PUSHI_DWORD 3; POP R2; MUL_DWORD; SUB_DWORD`, where the target does not rest on the first push and
on the two that are popped into registers. -/
def scattering : List Line :=
  [⟨Code.pushDword, .immediate 7⟩, ⟨Code.pushDword, .immediate 40⟩,
    ⟨Code.pushQword, .immediate 5⟩, ⟨Code.pop, .register .r0⟩, ⟨Code.pushDword, .immediate 9⟩,
    ⟨Code.pushRegisterDword, .register .r1⟩, ⟨Code.pushDword, .immediate 3⟩,
    ⟨Code.pop, .register .r2⟩, ⟨Code.mulDword, .none⟩, ⟨Code.subDword, .none⟩]

theorem scattering_folds_to_top :
    (∀ line ∈ scattering, line.Foldable) ∧ ReadsUnwritten scattering ∧
      ∃ listing last assembler final, (Assembler.start .reference 7).emitAll
          (scattering ++ [.jump]) = .ok (listing ++ [last], assembler) ∧
        assembler.code.size ≤ UInt32.size ∧
        (Machine.mk (.fill 2) []).run listing = .ok final ∧ final.stack = [22, 7] ∧
        (Discovery.mk assembler.code .reference ⟨.fill 2, []⟩).FoldsTo [⟨0, 7⟩] last.offset 22 := by
  have hlines : ∀ line ∈ scattering, line.Foldable := by
    simp only [scattering, List.forall_mem_cons]
    refine ⟨?_, ?_, ?_, ?_, ?_, ?_, ?_, ?_, ?_, ?_, fun _ hline => (nomatch hline)⟩ <;>
      exact ⟨_, _, _, rfl, rfl, rfl⟩
  have hreads : ReadsUnwritten scattering := by
    have hother : ∀ r, r ≠ Register.ip → Register.r0 = r → ¬Register.r1 = r := by
      rintro _ _ rfl h
      cases h
    simpa +decide [ReadsUnwritten, scattering, Line.reads] using hother
  have hvisit : firstVisit? scattering 7 ⟨.fill 2, []⟩ (fun final _ _ => final.stack) =
      some (38, [22, 7]) := by cbv
  obtain ⟨listing, last, assembler, final, _, _, _, hemit, hsize, hrun, _, _, _, hstack⟩ :=
    exists_of_firstVisit? hlines hvisit (by decide)
  obtain ⟨_, _, _, hemitted, hfolds⟩ := jump_folds_to_top hlines hreads 7 (.fill 2)
  rw [hemit] at hemitted
  simp only [Except.ok.injEq, Prod.mk.injEq, List.append_singleton_inj] at hemitted
  obtain ⟨⟨rfl, rfl⟩, rfl⟩ := hemitted
  exact ⟨hlines, hreads, listing, last, assembler, final, hemit, hsize, hrun, hstack,
    hfolds hsize final 22 [7] hrun hstack⟩

end Discovery

end StackLift
