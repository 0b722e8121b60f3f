import StackLift.Proofs.Calls
import StackLift.Proofs.Labels
import StackLift.Proofs.Ranks
import StackLift.Proofs.Reachable

namespace StackLift

/-- The slot holds the selector of the service that its reader calls: the last of what it
consumes. -/
def Slot.selects (slot : Slot) : Prop :=
  slot.reader.opcode.variableArity = true ∧ slot.index + 1 = slot.reader.inputs.length

instance (slot : Slot) : Decidable slot.selects :=
  inferInstanceAs (Decidable (_ ∧ _))

/-- A producer that is inlined into a selector, or into a reader that is spent. -/
inductive Graph.Spent (graph : Graph) : UInt32 → Prop
  | selector {slot : Slot} {a : UInt32} : a ∈ graph.placement.inlined → slot ∈ graph.slots →
      a ∈ slot.input.sources → slot.selects → Spent graph a
  | reader {slot : Slot} {a : UInt32} : a ∈ graph.placement.inlined → slot ∈ graph.slots →
      a ∈ slot.input.sources → Spent graph slot.reader.offset → Spent graph a

theorem Node.Calls.lt_length_iff {slot : Slot} (h : slot.reader.Calls)
    (hindex : slot.index < slot.reader.inputs.length) :
    slot.index < slot.reader.argumentInputs.length ↔ ¬slot.selects := by
  rw [Slot.selects, Node.argumentInputs, List.length_take, Node.argumentCount]
  cases harity : slot.reader.opcode.variableArity with
  | false =>
    rw [h.fixed harity]
    simp [hindex]
  | true =>
    obtain ⟨call, hcall, hlength⟩ := h.varying harity
    simp only [hcall, hlength, true_and]
    omega

namespace Graph

variable {graph : Graph} {a : UInt32} {slot : Slot}

theorem Spent.mem_inlined (h : graph.Spent a) : a ∈ graph.placement.inlined := by
  cases h <;> assumption

theorem exists_slot_of_inlined (h : a ∈ graph.placement.inlined) :
    ∃ slot ∈ graph.slots, a ∈ slot.input.sources := by
  obtain ⟨_, _, hinline⟩ := mem_inlined_iff.1 h
  rw [Node.isInlined, Bool.and_eq_true, decide_eq_true_eq] at hinline
  obtain ⟨slot, hreads⟩ := List.length_eq_one_iff.1 hinline.2
  exact ⟨slot, mem_readsOf.1 (hreads ▸ List.mem_singleton_self slot)⟩

theorem eq_of_mem_sources (hinlined : a ∈ graph.placement.inlined) (hslot : slot ∈ graph.slots)
    (ha : a ∈ slot.input.sources) {b : UInt32} (hb : b ∈ slot.input.sources) : b = a := by
  obtain ⟨node, hnode, _⟩ := mem_inlined_iff.1 hinlined
  by_contra hne
  have hstored := mem_stored_of_meet hslot ha hb (Ne.symm hne) (contains_iff.2 ⟨node, hnode⟩)
  exact not_mem_inlined_of_stored hstored hinlined

theorem inlinedAt?_eq_some_iff (hslot : slot ∈ graph.slots) :
    graph.outline.inlinedAt? slot.input = some a ↔
      a ∈ graph.placement.inlined ∧ a ∈ slot.input.sources := by
  constructor
  · exact Outline.mem_of_inlinedAt?
  · rintro ⟨hinlined, ha⟩
    obtain ⟨node, hnode, _⟩ := mem_inlined_iff.1 hinlined
    have hget : graph.contains a = true := contains_iff.2 ⟨node, hnode⟩
    have hread : graph.outline.naming.variableRead? slot.input = none := by
      rw [← Option.not_isSome_iff_eq_none, Option.isSome_iff_exists]
      rintro ⟨index, hindex⟩
      obtain ⟨b, hb, hholder⟩ := Naming.exists_holder_of_variableRead? hindex
      rw [eq_of_mem_sources hinlined hslot ha hb] at hholder
      exact not_mem_inlined_of_stored (mem_stored_of_holder? hholder) hinlined
    rcases read_or_inlined hslot ha hget with ⟨index, hindex⟩ | ⟨hsources, _⟩
    · rw [hread] at hindex
      cases hindex
    · rw [Outline.inlinedAt?, hread, Outline.inlinedProducer?, hsources]
      exact if_pos hinlined

theorem countP_eq_ite {α : Type} {p : α → Bool} {l : List α} {k : Nat}
    (h : ∀ i b, l[i]? = some b → (p b = true ↔ i = k)) :
    l.countP p = if k < l.length then 1 else 0 := by
  induction l generalizing k with
  | nil => rfl
  | cons c l ih =>
    cases k with
    | zero =>
      have hhead : p c = true := (h 0 c rfl).2 rfl
      have hrest : l.countP p = 0 := by
        rw [List.countP_eq_zero]
        intro b hb hp
        obtain ⟨i, hi⟩ := List.mem_iff_getElem?.1 hb
        exact absurd ((h (i + 1) b hi).1 hp) (Nat.succ_ne_zero i)
      rw [List.countP_cons_of_pos hhead, hrest]
      exact (if_pos (Nat.succ_pos _)).symm
    | succ k =>
      have hhead : ¬p c = true := fun hp => Nat.succ_ne_zero k ((h 0 c rfl).1 hp).symm
      have hrest := ih (k := k) fun i b hi => (h (i + 1) b hi).trans Nat.succ_inj
      rw [List.countP_cons_of_neg hhead, hrest]
      exact if_congr Nat.succ_lt_succ_iff.symm rfl rfl

theorem sum_map_ite_eq (labels : List UInt32) (offset : UInt32) :
    (labels.map fun b => if b = offset then 1 else 0).sum = labels.count offset := by
  induction labels with
  | nil => rfl
  | cons b rest ih =>
    rw [List.map_cons, List.sum_cons, ih, List.count_cons, Nat.add_comm]
    simp only [beq_iff_eq]

section

variable (hinlined : a ∈ graph.placement.inlined) (hslot : slot ∈ graph.slots)
  (ha : a ∈ slot.input.sources)
include hinlined hslot ha

theorem inlinedAt?_iff_slot_eq {node : Node} (hnode : graph.get? node.offset = some node) {k : Nat}
    {input : Provenance} (hk : node.argumentInputs[k]? = some input) :
    graph.outline.inlinedAt? input = some a ↔ (⟨node, k, input⟩ : Slot) = slot := by
  have hother : (⟨node, k, input⟩ : Slot) ∈ graph.slots :=
    mem_slots_iff.2 ⟨hnode, Node.inputs_of_argumentInputs hk⟩
  refine (inlinedAt?_eq_some_iff hother).trans ⟨fun h => ?_, ?_⟩
  · exact slot_eq_of_inlined hinlined hother hslot h.2 ha
  · rintro rfl
    exact ⟨hinlined, ha⟩

theorem takes_reader : graph.outline.takes a slot.reader.offset =
    if slot.index < slot.reader.argumentInputs.length then 1 else 0 := by
  obtain ⟨hreader, hinput⟩ := mem_slots_iff.1 hslot
  have hcount := countP_eq_ite (l := slot.reader.argumentInputs) (k := slot.index)
    (p := fun input => graph.outline.inlinedAt? input = some a) fun k input hk => by
      rw [decide_eq_true_iff, inlinedAt?_iff_slot_eq hinlined hslot ha hreader hk]
      constructor
      · exact congrArg Slot.index
      · rintro rfl
        have hsame := (Node.inputs_of_argumentInputs hk).symm.trans hinput
        rw [Option.some.inj hsame]
  have hlookup : graph.outline.graph.get? slot.reader.offset = some slot.reader := hreader
  rw [Outline.takes, hlookup]
  exact hcount

theorem takes_eq_zero {offset : UInt32} (hoffset : offset ≠ slot.reader.offset) :
    graph.outline.takes a offset = 0 := by
  rw [Outline.takes]
  split
  · next node hnode =>
    obtain rfl : node.offset = offset := offset_of_get? hnode
    rw [List.countP_eq_zero]
    intro input hinput hp
    obtain ⟨k, hk⟩ := List.mem_iff_getElem?.1 hinput
    rw [decide_eq_true_iff, inlinedAt?_iff_slot_eq hinlined hslot ha hnode hk] at hp
    exact hoffset (congrArg (fun slot => slot.reader.offset) hp)
  · rfl

/-- What is inlined enters as often as its reader does, or not at all if it is no argument. -/
theorem count_of_inlined {offsets labels : List UInt32}
    (h : graph.outline.Enters a (offsets.filter (· ∉ graph.placement.inlined)) labels) :
    labels.count a = if slot.index < slot.reader.argumentInputs.length
      then labels.count slot.reader.offset else 0 := by
  have hroot : (offsets.filter (· ∉ graph.placement.inlined)).count a = 0 := by
    rw [List.count_eq_zero]
    intro hmem
    simpa [hinlined] using List.of_mem_filter hmem
  have htakes : graph.outline.takes a = fun b => if b = slot.reader.offset then
      (if slot.index < slot.reader.argumentInputs.length then 1 else 0) else 0 := by
    funext b
    split
    · next hb => rw [hb, takes_reader hinlined hslot ha]
    · next hb => exact takes_eq_zero hinlined hslot ha hb
  rw [h, hroot, Nat.zero_add, htakes]
  by_cases hargument : slot.index < slot.reader.argumentInputs.length
  · simp only [hargument, if_true]
    exact sum_map_ite_eq labels slot.reader.offset
  · simp [hargument]

end

theorem count_of_not_inlined {offsets labels : List UInt32} (hnot : a ∉ graph.placement.inlined)
    (h : graph.outline.Enters a (offsets.filter (· ∉ graph.placement.inlined)) labels) :
    labels.count a = offsets.count a := by
  have htakes : graph.outline.takes a = fun _ => 0 := by
    funext b
    rw [Outline.takes]
    split
    · rw [List.countP_eq_zero]
      intro input _ hp
      exact hnot (Outline.mem_of_inlinedAt? (decide_eq_true_iff.1 hp)).1
    · rfl
  rw [h, htakes, List.count_filter (by simpa using hnot)]
  simp

section

variable (hinlined : a ∈ graph.placement.inlined) (hslot : slot ∈ graph.slots)
  (ha : a ∈ slot.input.sources)
include hinlined hslot ha

theorem spent_iff : graph.Spent a ↔ slot.selects ∨ graph.Spent slot.reader.offset := by
  constructor
  · intro hspent
    cases hspent with
    | selector _ hother hread hselects =>
      rw [slot_eq_of_inlined hinlined hother hslot hread ha] at hselects
      exact .inl hselects
    | reader _ hother hread hreader =>
      rw [slot_eq_of_inlined hinlined hother hslot hread ha] at hreader
      exact .inr hreader
  · rintro (hselects | hreader)
    · exact .selector hinlined hslot ha hselects
    · exact .reader hinlined hslot ha hreader

/-- What is inlined was discovered before its reader. -/
theorem Ranked.lt_reader {rank : UInt32 → Nat} {bound : Nat} (h : graph.Ranked rank bound) :
    rank a < rank slot.reader.offset := by
  obtain ⟨hreader, hinput⟩ := mem_slots_iff.1 hslot
  obtain ⟨b, hb, _, hlt⟩ := h.inputs _ _ hreader slot.input (List.mem_of_getElem? hinput)
  rwa [eq_of_mem_sources hinlined hslot ha hb] at hlt

end

/-- Of the labels that enter by the statements of `offsets`, where every offset of the graph is met
once, each offset is one, unless it is spent. -/
theorem count_of_enters {rank : UInt32 → Nat} {bound : Nat} (hranked : graph.Ranked rank bound)
    (hcalls : ∀ offset node, graph.get? offset = some node → node.Calls)
    {offsets labels : List UInt32}
    (hoffsets : ∀ a, graph.contains a = true → offsets.count a = 1)
    (h : ∀ a, graph.outline.Enters a (offsets.filter (· ∉ graph.placement.inlined)) labels)
    (ha : graph.contains a = true) :
    (¬graph.Spent a → labels.count a = 1) ∧ (graph.Spent a → labels.count a = 0) := by
  -- A reader ranks above what is inlined into it, and no rank reaches the bound.
  induction hroom : bound - rank a using Nat.strongRecOn generalizing a with
  | ind room ih =>
    by_cases hinlined : a ∈ graph.placement.inlined
    · obtain ⟨slot, hslot, hread⟩ := exists_slot_of_inlined hinlined
      obtain ⟨hreader, hinput⟩ := mem_slots_iff.1 hslot
      have hcontains : graph.contains slot.reader.offset = true := contains_iff.2 ⟨_, hreader⟩
      have hargument := (hcalls _ _ hreader).lt_length_iff (List.getElem?_eq_some_iff.1 hinput).1
      rw [count_of_inlined hinlined hslot hread (h a), if_congr hargument rfl rfl, ite_not,
        spent_iff hinlined hslot hread]
      by_cases hselects : slot.selects
      · rw [if_pos hselects]
        exact ⟨fun hnot => absurd (.inl hselects) hnot, fun _ => rfl⟩
      · have hlt := hranked.lt_reader hinlined hslot hread
        have hbounded := hranked.bounded _ hcontains
        rw [if_neg hselects, or_iff_right hselects]
        exact ih (bound - rank slot.reader.offset) (by omega) hcontains rfl
    · rw [count_of_not_inlined hinlined (h a), hoffsets a ha]
      exact ⟨fun _ => rfl, fun hspent => absurd hspent.mem_inlined hinlined⟩

end Graph

namespace Discovery

/-- In the listing built from the only entry of a discovery, every offset of the graph labels one
instruction or call, but for those that are spent, which label none. -/
theorem count_labels {d : Discovery} (hisa : d.isa.CallsReturn) {entry : Export} {graph : Graph}
    (h : (d.discover [entry]).outcome = .ok graph) :
    ∃ listing, (graph.build entry.offset).outcome = .ok listing ∧
      ∀ offset, graph.contains offset = true →
        (¬graph.Spent offset → (labelsOf listing.statements).count offset = 1) ∧
        (graph.Spent offset → (labelsOf listing.statements).count offset = 0) := by
  have hp := passes_of_discover h
  obtain ⟨rank, bound, hranked⟩ := hp.ranked
  obtain ⟨node, hnode, _⟩ := discover_covers hisa h entry List.mem_cons_self
  obtain ⟨listing, hlisting⟩ := hp.build_ok (Graph.contains_iff.2 ⟨node, hnode⟩)
  refine ⟨listing, hlisting, fun offset hoffset => ?_⟩
  have hstatements := Graph.statements_of_build hlisting
  apply Graph.count_of_enters hranked (hp.calls hisa) ?_
    (fun _ => Outline.enters_statements hstatements) hoffset
  intro a ha
  obtain ⟨other, hother, earlier, hpath⟩ := (hp.found hisa).1 a ha
  rw [List.mem_singleton.1 hother] at hpath
  exact List.count_eq_one_of_mem (graph.nodup_walkFrom _ _).1
    (hpath.mem_walk a List.mem_cons_self)

/-- `PUSHI_DWORD 2; PUSHI_DWORD 1; PUSHI_DWORD 0; ADD_DWORD; VCALL; POP R4; RET`, in which the call
has spent the sum at 15 and the two pushes in front of it. -/
def spending : Discovery :=
  ⟨(maskBytes 0 0 [0x04, 2, 0, 0, 0, 0x04, 1, 0, 0, 0, 0x04, 0, 0, 0, 0, 0x10, 0x40, 0x06, 4,
      0x34]).toArray, .reference, .ofPresets []⟩

theorem spending_count_labels :
    spending.isa.CallsReturn ∧ ∃ graph, (spending.discover [⟨0, 0⟩]).outcome = .ok graph ∧
      graph.offsets = [0, 5, 10, 15, 16, 17, 19] ∧ graph.Spent 15 ∧
      ∃ listing, (graph.build 0).outcome = .ok listing ∧
        ∀ offset, graph.contains offset = true →
          (¬graph.Spent offset → (labelsOf listing.statements).count offset = 1) ∧
          (graph.Spent offset → (labelsOf listing.statements).count offset = 0) := by
  have hisa : spending.isa.CallsReturn := InstructionSet.reference_callsReturn
  have hrun : (spending.discoverWithin 40 [⟨0, 0⟩]).map (fun outcome => outcome.map fun graph =>
      (graph.offsets, decide (15 ∈ graph.placement.inlined),
        graph.slots.any fun slot => 15 ∈ slot.input.sources && slot.selects)) =
      some (.ok ([0, 5, 10, 15, 16, 17, 19], true, true)) := by cbv
  obtain ⟨graph, hgraph, hfacts⟩ := exists_discovered _ hrun
  simp only [Prod.mk.injEq, decide_eq_true_eq, List.any_eq_true, Bool.and_eq_true] at hfacts
  obtain ⟨hoffsets, hinlined, slot, hslot, hread, hselects⟩ := hfacts
  exact ⟨hisa, graph, hgraph, hoffsets, .selector hinlined hslot hread hselects,
    count_labels hisa hgraph⟩

end Discovery

end StackLift
