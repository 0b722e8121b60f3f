import StackLift.Proofs.Inputs
import StackLift.Proofs.Producers
import StackLift.Proofs.Readers
import StackLift.Proofs.Selectors

namespace StackLift

/-- The kind of the value that the recorded instruction makes when it pushes: that of its opcode or
of the service it calls, and a dword for the instruction pointer. -/
def Node.producedKind? (node : Node) : Option ValueKind :=
  node.pushKind?.map fun kind => if node.operand = .register .ip then .dword else kind

theorem ValueKind.join_eq_left_cases {a b : ValueKind} (h : a.join b = a) :
    a = .object ∨ b = a := by
  revert h
  cases a <;> cases b <;> decide

theorem Frame.pushed_own (f : Frame) {i : Instruction} (h : i.poppedRegister? = none) (count : Nat)
    (kind : ValueKind)
    (hentry : ∀ r, i.operand = .register r → r ≠ .ip → (f.registers.get r).isEntry = true) :
    (f.behindPops i count).pushed i kind =
      .producedBy i.offset (if i.operand = .register .ip then .dword else kind) := by
  rw [pushed]
  split
  · next r hoperand =>
    rw [registers_behindPops f h, hoperand]
    by_cases hr : r = .ip
    · rw [hr, RegisterFile.get_set_self, if_pos rfl]
      rfl
    · rw [RegisterFile.get_set_of_ne _ _ hr, hentry r hoperand hr, if_pos rfl,
        if_neg fun heq => hr (Operand.register.inj heq)]
  · next hoperand => rw [if_neg (hoperand .ip)]

namespace Graph

variable {graph : Graph} {u v w : Provenance} {f g k m : Frame}

def Produces (graph : Graph) (a : UInt32) (kind : ValueKind) : Prop :=
  ∃ node, graph.get? a = some node ∧ node.producedKind? = some kind

/-- What `v` may be is of the kind of `w`, unless that is some object. -/
def Fits (graph : Graph) (w v : Provenance) : Prop :=
  w.kind ≠ .object → v.isEntry = false ∧ ∀ a ∈ v.sources, graph.Produces a w.kind

theorem Fits.merge (hu : graph.Fits w u) (hv : graph.Fits w v) : graph.Fits w (u.merge v) := by
  intro hkind
  obtain ⟨hentry, hleft⟩ := hu hkind
  obtain ⟨_, hright⟩ := hv hkind
  refine ⟨?_, fun a ha => (Provenance.mem_sources_merge.1 ha).elim (hleft a) (hright a)⟩
  obtain ⟨a, ha⟩ := Provenance.exists_mem_of_isEntry hentry
  exact Provenance.isEntry_eq_false_of_mem (Provenance.mem_sources_merge.2 (.inl ha))

theorem Fits.covers (h : graph.Fits w u) (hv : v.Covers w) : graph.Fits v u := by
  intro hkind
  have hsame := (ValueKind.join_eq_left_cases hv.kind).resolve_left hkind
  rw [← hsame] at hkind ⊢
  exact h hkind

theorem fits_entry (h : w.Covers (.entry .object)) : graph.Fits w (.entry .object) := by
  intro hkind
  exact absurd ((ValueKind.join_eq_left_cases h.kind).resolve_left hkind).symm hkind

/-- What the frame `g` holds fits what `f` holds in the same place. -/
structure Suits (graph : Graph) (f g : Frame) : Prop where
  stack : List.Forall₂ graph.Fits f.stack g.stack
  registers : ∀ r, r ≠ .ip → graph.Fits (f.registers.get r) (g.registers.get r)

theorem suits_start {ip key : UInt32} (h : f.Covers (.start ip key)) :
    graph.Suits f (.start ip key) := by
  constructor
  · have hstack : f.stack = [] := List.forall₂_nil_right_iff.1 h.stack
    rw [hstack]
    exact .nil
  · intro r hr
    have hregister := h.registers r hr
    rw [Frame.start, RegisterFile.get_fill] at hregister ⊢
    exact fits_entry hregister

theorem Suits.covers (h : graph.Suits g k) (hf : f.Covers g) : graph.Suits f k :=
  ⟨forall₂_comp hf.stack h.stack fun _ _ _ hv hfits => hfits.covers hv,
    fun r hr => (h.registers r hr).covers (hf.registers r hr)⟩

theorem Suits.merge {grew : Bool} (hg : graph.Suits f g) (hk : graph.Suits f k)
    (h : g.merge k = .ok (m, grew)) : graph.Suits f m := by
  rw [Frame.merge] at h
  split at h
  · cases h
    have hleft : List.Forall₂ (flip graph.Fits) g.stack f.stack := List.Forall₂.flip hg.stack
    have hright : List.Forall₂ (flip graph.Fits) k.stack f.stack := List.Forall₂.flip hk.stack
    have hcells := Frame.mergeStack_forall₂ (R := flip graph.Fits)
      (fun _ _ _ hu hv => Fits.merge hu hv) hleft hright
    refine ⟨hcells.flip, ?_⟩
    intro r hr
    rw [Frame.get_mergeRegisters _ _ hr]
    exact (hg.registers r hr).merge (hk.registers r hr)
  · cases h

theorem Suits.behindPops (h : graph.Suits f g) (i : Instruction) (count : Nat) :
    graph.Suits (f.behindPops i count) (g.behindPops i count) := by
  constructor
  · rw [Frame.stack_behindPops, Frame.stack_behindPops]
    exact List.forall₂_drop count h.stack
  · intro r hr
    have hpopped := List.forall₂_reverse_iff.2 (List.forall₂_take count h.stack)
    simp only [Frame.behindPops, Frame.bindPopped]
    generalize (f.stack.take count).reverse = upper at hpopped
    generalize (g.stack.take count).reverse = lower at hpopped
    cases i.poppedRegister? with
    | none =>
      simp only [Frame.setRegister, RegisterFile.get_set_of_ne _ _ hr]
      exact h.registers r hr
    | some r' =>
      cases hpopped with
      | nil =>
        simp only [Frame.setRegister, RegisterFile.get_set_of_ne _ _ hr]
        exact h.registers r hr
      | cons hcell _ =>
        simp only [Frame.setRegister, RegisterFile.get_set, hr, if_false]
        by_cases hrr : r = r'
        · simp only [hrr, if_true]
          exact hcell
        · simp only [hrr, if_false]
          exact h.registers r hr

section

variable {known last : Node} {e e' : Effect} {t : UInt32}
  (hknown : InstructionSet.reference.Admits known.toInstruction) (hgrown : last.Extends known)
  (hlast : graph.get? known.offset = some last) (hsuits : graph.Suits last.frame known.frame)
include hknown hgrown hlast hsuits

/-- A push makes a value of its own in both frames, or passes on what is known of its register in
both. Where nothing is known of the register at first, it is some object in the end. -/
theorem fits_pushed {kind kind' : ValueKind} (hkind : last.pushKind? = some kind)
    (hpushes : known.opcode.pushes ≠ .none) (count : Nat) :
    graph.Fits ((last.frame.behindPops known.toInstruction count).pushed known.toInstruction kind)
      ((known.frame.behindPops known.toInstruction count).pushed known.toInstruction kind') := by
  have hpopped := (hknown.of_pushes hpushes).2
  rcases last.frame.pushed_cases hpopped count kind with
    ⟨_, hentry⟩ | ⟨r, hoperand, hr, _, hpushed⟩
  · rw [last.frame.pushed_own hpopped count kind hentry]
    have hentry' : ∀ r, known.operand = .register r → r ≠ .ip →
        (known.frame.registers.get r).isEntry = true := by
      intro r hoperand hr
      by_contra hfilled
      obtain ⟨a, ha⟩ := Provenance.exists_mem_of_isEntry (Bool.eq_false_iff.2 hfilled)
      have hsource := (hgrown.frame.registers r hr).sources a ha
      have hempty := hentry r hoperand hr
      rw [Provenance.isEntry_eq_false_of_mem hsource] at hempty
      cases hempty
    rw [known.frame.pushed_own hpopped count kind' hentry']
    intro _
    refine ⟨rfl, fun a ha => ?_⟩
    rw [OffsetSet.mem_singleton.1 ha]
    refine ⟨last, hlast, ?_⟩
    rw [Node.producedKind?, hkind, hgrown.instruction]
    rfl
  · rw [hpushed]
    intro hdefinite
    have hfits := hsuits.registers r hr hdefinite
    rcases known.frame.pushed_cases hpopped count kind' with
      ⟨_, hentry⟩ | ⟨r', hoperand', _, _, hpushed'⟩
    · rw [hentry r hoperand hr] at hfits
      exact absurd hfits.1.symm Bool.false_ne_true
    · rw [hoperand] at hoperand'
      cases hoperand'
      rw [hpushed']
      exact hfits

theorem Suits.effect (he : last.effectOn last.frame = .ok e)
    (he' : known.effectOn known.frame = .ok e') (hcount : last.popCount = known.popCount)
    (hdepth : e.frame.depth = e'.frame.depth) : graph.Suits e.frame e'.frame := by
  obtain ⟨_, rfl⟩ := Node.effectOn_eq_ok_iff he
  obtain ⟨_, rfl⟩ := Node.effectOn_eq_ok_iff he'
  rw [hcount, hgrown.instruction] at hdepth ⊢
  have hbehind := hsuits.behindPops known.toInstruction known.popCount
  -- As both leave the stack equally deep, both push or neither does.
  simp only [Frame.depth_behindPush, Frame.depth_behindPops, hgrown.frame.depth_eq,
    Nat.add_left_cancel_iff] at hdepth
  cases hkind : last.pushKind? with
  | none =>
    cases hkind' : known.pushKind? with
    | none => exact hbehind
    | some kind' =>
      rw [hkind, hkind'] at hdepth
      cases hdepth
  | some kind =>
    cases hkind' : known.pushKind? with
    | none =>
      rw [hkind, hkind'] at hdepth
      cases hdepth
    | some kind' =>
      have hpushes : known.opcode.pushes ≠ .none := by
        apply Node.pushes_of_pushKind?
        rw [hkind']
        exact Option.some_ne_none kind'
      exact ⟨.cons (fits_pushed hknown hgrown hlast hsuits hkind hpushes _) hbehind.stack,
        hbehind.registers⟩

end

def Receives (graph : Graph) (offset : UInt32) (f : Frame) : Prop :=
  ∃ node, graph.get? offset = some node ∧ graph.Suits node.frame f

structure Accommodates (graph : Graph) (s : Search) : Prop where
  nodes : ∀ offset node, s.graph.get? offset = some node → graph.Receives offset node.frame
  agenda : ∀ f ∈ s.agenda, graph.Receives f.ip f

end Graph

theorem Node.popCount_eq_length {node : Node} {e : Effect} (he : node.effectOn node.frame = .ok e)
    (hinputs : List.Forall₂ Provenance.Covers node.inputs e.popped) :
    node.popCount = node.inputs.length := by
  obtain ⟨hle, rfl⟩ := effectOn_eq_ok_iff he
  rw [hinputs.length_eq, List.length_reverse, List.length_take_of_le hle]

namespace Discovery

variable {d : Discovery} {exports rest : List Export} {graph final : Graph} {frame : Frame}
  {frames waiting : List Frame} {node known : Node} {e : Effect} {s : Search}

theorem Arrives.receives (h : d.Arrives graph frame node)
    (ha : final.Accommodates ⟨graph, frame :: waiting⟩) :
    final.Receives frame.ip node.frame := by
  obtain ⟨last, hlast, hsuits⟩ := ha.agenda frame List.mem_cons_self
  refine ⟨last, hlast, ?_⟩
  cases h with
  | found _ hdecode =>
    rw [(decode_cases hdecode).2.1]
    exact hsuits
  | grown hget hmerge =>
    obtain ⟨other, hother, hold⟩ := ha.nodes _ _ hget
    rw [hlast] at hother
    cases hother
    exact hold.merge hsuits hmerge

section

variable (hisa : d.isa = .reference) (hfinal : (d.discover exports).outcome = .ok final)
include hisa hfinal

/-- What an instruction of a stage hands on suits what is recorded for it in the end. -/
theorem Stage.receives (h : d.Stage exports rest s)
    (hknown : s.graph.get? known.offset = some known)
    (hframe : final.Receives known.offset known.frame)
    (he : known.effectOn known.frame = .ok e)
    (hinputs : List.Forall₂ Provenance.Covers known.inputs e.popped) {t : UInt32}
    (ht : t ∈ known.successors) (hagenda : e.frame.moveTo t ∈ s.agenda) :
    final.Receives t (e.frame.moveTo t) := by
  have hcalls : d.isa.CallsReturn := hisa ▸ InstructionSet.reference_callsReturn
  have hadmits := h.passes.drawnFrom hcalls _ known hknown
  obtain ⟨last, hlast, hgrown⟩ := h.extends hfinal _ known hknown
  obtain ⟨last', hlast', hsuits⟩ := hframe
  rw [hlast'] at hlast
  cases hlast
  obtain ⟨e', he'⟩ := (discover_settling hcalls hfinal).settles _ _ hlast'
  have ht' := hgrown.mem_successors (hcalls _ hadmits.opcode) ht
  obtain ⟨target, htarget, hcovers⟩ := Graph.covers_of_due_nil (he'.successors t ht')
  obtain ⟨target', htarget', hcovers'⟩ := h.covers hcalls hfinal _ hagenda
  cases htarget.symm.trans htarget'
  have hcount : last.popCount = known.popCount := by
    rw [Node.popCount_eq_length he'.effect he'.inputs, Node.popCount_eq_length he hinputs,
      hgrown.inputs.length_eq]
  have hdepth : e'.frame.depth = e.frame.depth := hcovers.depth_eq.symm.trans hcovers'.depth_eq
  have hbehind :=
    hsuits.effect (hisa ▸ hadmits) hgrown hlast' he'.effect he hcount hdepth
  have htargets := hbehind.covers ⟨hcovers.stack, hcovers.registers⟩
  exact ⟨target, htarget, htargets.stack, htargets.registers⟩

theorem Stage.accommodates (h : d.Stage exports rest s) : final.Accommodates s := by
  have hcalls : d.isa.CallsReturn := hisa ▸ InstructionSet.reference_callsReturn
  induction h with
  | start => exact ⟨fun _ _ hnode => (nomatch hnode), fun _ hf => absurd hf List.not_mem_nil⟩
  | @enter entry _ _ hstage ih =>
    refine ⟨ih.nodes, fun f hf => ?_⟩
    obtain ⟨node, hnode, hcovers⟩ := hstage.enter.covers hcalls hfinal f hf
    rw [List.mem_singleton.1 hf] at hnode hcovers ⊢
    exact ⟨node, hnode, Graph.suits_start hcovers⟩
  | @visit rest graph next frame frames waiting hstage hvisit ih =>
    have hwaiting : ∀ f ∈ waiting, final.Receives f.ip f :=
      fun f hf => ih.agenda f (List.mem_cons_of_mem _ hf)
    rcases visit_cases hcalls (hstage.passes.drawnFrom hcalls) hvisit with
      ⟨_, rfl, rfl⟩ | ⟨node, known, e, harrives, hknown, hget, hframes⟩
    · exact ⟨ih.nodes, hwaiting⟩
    · have hframe := harrives.receives ih
      rw [← hknown.frame] at hframe
      have hoffset : known.offset = frame.ip := by rw [hknown.instruction, harrives.offset_eq]
      constructor
      · intro offset other hother
        rw [hget] at hother
        split at hother
        · next heq =>
          cases hother
          rw [heq]
          exact hframe
        · exact ih.nodes offset other hother
      · intro f hf
        rcases List.mem_append.1 hf with hf' | hf'
        · rw [hframes] at hf'
          obtain ⟨t, ht, rfl⟩ := List.mem_map.1 hf'
          have hrecorded : next.get? known.offset = some known := by rw [hget, if_pos hoffset]
          exact (hstage.visit hvisit).receives hisa hfinal hrecorded (hoffset ▸ hframe)
            hknown.effect (recordInputs_covers hknown.inputs) (List.mem_reverse.1 ht) hf
        · exact hwaiting f hf'

/-- The producers of a slot whose input is not just some object make values of its kind. -/
theorem discover_produces {slot : Slot} (hslot : slot ∈ final.slots)
    (hkind : slot.input.kind ≠ .object) :
    ∀ a ∈ slot.input.sources, final.Produces a slot.input.kind := by
  obtain ⟨hreader, hinput⟩ := Graph.mem_slots_iff.1 hslot
  obtain ⟨last, hlast, hsuits⟩ :=
    ((stage_of_discover hfinal).accommodates hisa hfinal).nodes _ _ hreader
  rw [hreader] at hlast
  cases hlast
  have hontop := (passes_of_discover hfinal).inputsOnTop _ _ hreader
  have hmem := hontop.mem_stack (List.mem_of_getElem? hinput)
  exact (List.forall₂_same.1 hsuits.stack _ hmem hkind).2

end

end Discovery

namespace Graph

variable {graph : Graph} {a b c : UInt32} {kind kind' : ValueKind}

theorem Produces.unique (h : graph.Produces a kind) (h' : graph.Produces a kind') :
    kind = kind' := by
  obtain ⟨node, hnode, hkind⟩ := h
  obtain ⟨node', hnode', hkind'⟩ := h'
  rw [hnode] at hnode'
  cases hnode'
  rw [hkind] at hkind'
  exact Option.some.inj hkind'

/-- A chain of slots leads from one producer to the other, none of which reads just some object. -/
def Akin (graph : Graph) : UInt32 → UInt32 → Prop :=
  Relation.EqvGen fun a b => ∃ slot ∈ graph.slots, slot.input.kind ≠ .object ∧
    a ∈ slot.input.sources ∧ b ∈ slot.input.sources

theorem Akin.produces_iff (h : graph.Akin a b)
    (hslots : ∀ slot ∈ graph.slots, slot.input.kind ≠ .object →
      ∀ a ∈ slot.input.sources, graph.Produces a slot.input.kind) :
    graph.Produces a kind ↔ graph.Produces b kind := by
  induction h with
  | rel a b hslot =>
    obtain ⟨slot, hslot, hdefinite, ha, hb⟩ := hslot
    have hproduces := hslots slot hslot hdefinite
    constructor
    · intro h
      rw [h.unique (hproduces a ha)]
      exact hproduces b hb
    · intro h
      rw [h.unique (hproduces b hb)]
      exact hproduces a ha
  | refl a => exact Iff.rfl
  | symm a b _ ih => exact ih.symm
  | trans a b c _ _ hab hbc => exact hab.trans hbc

/-- Connected producers are akin when no slot reads their class as just some object. -/
theorem Connected.akin (h : graph.Connected a b) (ha : graph.Connected c a)
    (hkinds : ∀ slot ∈ graph.slots, (∃ a ∈ graph.component c, a ∈ slot.input.sources) →
      slot.input.kind ≠ .object) : graph.Akin a b := by
  induction h with
  | rel a b hjoins =>
    obtain ⟨slot, hslot, hreada, hreadb⟩ := hjoins.slot
    exact .rel a b ⟨slot, hslot, hkinds slot hslot ⟨a, ⟨hjoins.left, ha⟩, hreada⟩, hreada, hreadb⟩
  | refl a => exact .refl a
  | symm a b hab ih => exact .symm a b (ih (.trans c b a ha (.symm a b hab)))
  | trans a b c' hab _ hleft hright =>
    exact .trans a b c' (hleft ha) (hright (.trans c a b ha hab))

/-- The variable is named after this slot and has its kind, which is the first slot to read the
class of the producer. -/
structure Declares (graph : Graph) (v : Variable) (a : UInt32) (slot : Slot) : Prop where
  first : graph.FirstReads (graph.component a) slot
  name : v.name = slot.variableName
  kind : v.kind = slot.input.kind

end Graph

namespace Discovery

variable {d : Discovery} {exports : List Export} {graph : Graph} {start : UInt32}
  {listing : Listing} {statement : Statement} {index : Nat}

/-- A variable that is assigned to has the kind of the first slot that reads its class. If that is
not just some object, then all producers in this slot make values of exactly this kind, and so does
the assigned instruction if it is akin to one of them; which it is when no slot reads the class as
just some object. -/
theorem kind_of_assigned (hisa : d.isa = .reference)
    (hgraph : (d.discover exports).outcome = .ok graph)
    (hbuild : (graph.build start).outcome = .ok listing)
    (hstatement : statement ∈ listing.statements) (htarget : statement.target = some index) :
    ∃ offset v slot, statement.expression.offset? = some offset ∧
      listing.table.get? index = some v ∧ graph.Declares v offset slot ∧
      (v.kind ≠ .object →
        (∀ a ∈ slot.input.sources, graph.Produces a v.kind) ∧
        (∀ a ∈ slot.input.sources, graph.Akin a offset → graph.Produces offset v.kind) ∧
        ((∀ other ∈ graph.slots, (∃ a ∈ graph.component offset, a ∈ other.input.sources) →
          other.input.kind ≠ .object) → graph.Produces offset v.kind)) := by
  obtain ⟨node, _, _, _, hexpression, hholder⟩ := Graph.of_mem_statements hbuild hstatement
  obtain ⟨k, introduction, slot, hk, _, rfl, hfirst, hname, hkind⟩ :=
    Graph.exists_variable (hholder.symm.trans htarget)
  obtain ⟨readers, hget, _⟩ :=
    VariableTable.exists_readers (Graph.get?_variable hk) (readsIn listing.statements)
  rw [← Graph.table_of_build hbuild] at hget
  refine ⟨node.offset, _, slot, Graph.offset?_of_expression hexpression, hget,
    ⟨hfirst, hname, hkind⟩, ?_⟩
  intro hdefinite
  have hslots : ∀ slot ∈ graph.slots, slot.input.kind ≠ .object →
      ∀ a ∈ slot.input.sources, graph.Produces a slot.input.kind :=
    fun _ => discover_produces hisa hgraph
  have hsources : ∀ a ∈ slot.input.sources, graph.Produces a introduction.kind := by
    rw [hkind]
    exact hslots slot hfirst.mem (hkind ▸ hdefinite)
  have hakin : ∀ a ∈ slot.input.sources, graph.Akin a node.offset →
      graph.Produces node.offset introduction.kind :=
    fun a ha h => (h.produces_iff hslots).1 (hsources a ha)
  refine ⟨hsources, hakin, fun hkinds => ?_⟩
  obtain ⟨a, ⟨_, hconnected⟩, hread⟩ := hfirst.reads
  have hchain : graph.Akin node.offset a := hconnected.akin (.refl node.offset) hkinds
  exact hakin a hread (.symm _ _ hchain)

/-- The selectors at 16 and 27 share the variable of a dword, and no slot reads just some object. -/
theorem choosing_kind_of_assigned :
    choosing.isa = .reference ∧ ∃ graph listing statement v,
      (choosing.discover [⟨0, 0⟩]).outcome = .ok graph ∧
      (graph.build 0).outcome = .ok listing ∧ statement ∈ listing.statements ∧
      statement.target = some 18 ∧ statement.expression.offset? = some 27 ∧
      listing.table.get? 18 = some v ∧ v.kind = .dword ∧ graph.Produces 27 v.kind := by
  have hrun : (choosing.discoverWithin 40 [⟨0, 0⟩]).map (fun outcome => outcome.map fun graph =>
      (graph.slots.map fun slot => slot.input.kind, do
        let listing ← (graph.build 0).outcome.toOption
        let statement ← listing.statements[7]?
        let v ← listing.table.get? 18
        return (statement.target, statement.expression.offset?, v.kind))) =
      some (.ok (.replicate 5 .dword, some (some 18, some (27 : UInt32), .dword))) := by cbv
  obtain ⟨graph, hgraph, hfacts⟩ := exists_discovered _ hrun
  simp only [Prod.mk.injEq, Option.bind_eq_bind, Option.bind_eq_some_iff, Option.pure_def,
    Option.some.injEq] at hfacts
  obtain ⟨hslots, listing, hlisting, statement, hstatement, v, hv, htarget, hroot, hkind⟩ := hfacts
  have hbuild := ok_of_toOption_eq_some hlisting
  have hmem := List.mem_of_getElem? hstatement
  obtain ⟨offset, v', slot, hroot', hv', _, hkinds⟩ :=
    kind_of_assigned rfl hgraph hbuild hmem htarget
  rw [hv] at hv'
  rw [hroot] at hroot'
  cases hv'
  cases hroot'
  have hdefinite : v.kind ≠ .object := by
    rw [hkind]
    decide
  obtain ⟨_, _, hproduces⟩ := hkinds hdefinite
  refine ⟨rfl, graph, listing, statement, v, hgraph, hbuild, hmem, htarget, hroot, hv, hkind,
    hproduces fun other hother _ => ?_⟩
  have hother := List.mem_map_of_mem (f := fun slot : Slot => slot.input.kind) hother
  rw [hslots] at hother
  rw [List.eq_of_mem_replicate hother]
  decide

/-- The loop `PUSHR_QWORD R0; PUSHI_DWORD 5; POP R0; POP R1; PUSHI_DWORD 0; JMP`. -/
def mixing : Discovery :=
  ⟨(maskBytes 0 0 [0x03, 0, 0x04, 5, 0, 0, 0, 0x06, 0, 0x06, 1, 0x04, 0, 0, 0, 0, 0x30]).toArray,
    .reference, .ofPresets []⟩

/-- A slot at 9 reads both values of this loop as some object. Their variable is declared for the
first slot, at 7, which reads the dword only, and 0 assigns a qword to it. -/
theorem mixing_declares_other_kind :
    mixing.isa = .reference ∧ ∃ graph listing statement v,
      (mixing.discover [⟨0, 0⟩]).outcome = .ok graph ∧
      (graph.build 0).outcome = .ok listing ∧ statement ∈ listing.statements ∧
      statement.target = some 16 ∧ statement.expression.offset? = some 0 ∧
      listing.table.get? 16 = some v ∧ v.kind = .dword ∧ graph.Produces 0 .qword ∧
      ¬graph.Produces 0 v.kind := by
  have hrun : (mixing.discoverWithin 40 [⟨0, 0⟩]).map (fun outcome => outcome.map fun graph => do
        let node ← graph.get? 0
        let listing ← (graph.build 0).outcome.toOption
        let statement ← listing.statements[0]?
        let v ← listing.table.get? 16
        return (node.producedKind?, statement.target, statement.expression.offset?, v.kind)) =
      some (.ok (some (some .qword, some 16, some (0 : UInt32), .dword))) := by cbv
  obtain ⟨graph, hgraph, hfacts⟩ := exists_discovered _ hrun
  simp only [Prod.mk.injEq, Option.bind_eq_bind, Option.bind_eq_some_iff, Option.pure_def,
    Option.some.injEq] at hfacts
  obtain ⟨node, hnode, listing, hlisting, statement, hstatement, v, hv, hproduced, htarget, hroot,
    hkind⟩ := hfacts
  have hqword : graph.Produces 0 .qword := ⟨node, hnode, hproduced⟩
  refine ⟨rfl, graph, listing, statement, v, hgraph, ok_of_toOption_eq_some hlisting,
    List.mem_of_getElem? hstatement, htarget, hroot, hv, hkind, hqword, ?_⟩
  intro hdword
  rw [hkind] at hdword
  cases hqword.unique hdword

end Discovery

end StackLift
