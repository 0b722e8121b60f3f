import StackLift.Proofs.Inlining

namespace StackLift

def Slot.PopsIntoRegister (slot : Slot) : Prop :=
  slot.reader.opcode.pops = .one ∧ ∃ r, slot.reader.operand = .register r

/-- What the slot reads is the target of a control transfer, which stands last. -/
def Slot.GivesTarget (slot : Slot) : Prop :=
  slot.reader.opcode.transfersControl = true ∧ slot.index + 1 = slot.reader.inputs.length

def Instruction.PushesRegister (i : Instruction) : Prop :=
  i.opcode.pushes ≠ .none ∧ ∃ r, i.operand = .register r

/-- The only slot that reads what is produced at the offset, which it can take in. -/
structure Graph.Inlines (graph : Graph) (slot : Slot) (offset : UInt32) : Prop where
  mem : slot ∈ graph.slots
  sources : slot.input.sources.toList = [offset]
  only : ∀ other ∈ graph.slots, offset ∈ other.input.sources → other = slot
  unpopped : ¬slot.PopsIntoRegister
  noTarget : ¬slot.GivesTarget
  produced : ∃ node, graph.get? offset = some node ∧ ¬node.PushesRegister

def Graph.Inlinable (graph : Graph) (offset : UInt32) : Prop :=
  ∃ slot, graph.Inlines slot offset

theorem Slot.registerBound_iff {slot : Slot} :
    slot.registerBound = true ↔ slot.PopsIntoRegister ∨ slot.GivesTarget := by
  have hpopped : slot.reader.poppedRegister?.isSome = true ↔ slot.PopsIntoRegister := by
    rw [PopsIntoRegister, Instruction.poppedRegister?]
    split
    · next r hpops hoperand => simp [hpops, hoperand]
    · next hother =>
      constructor
      · intro h
        cases h
      · rintro ⟨hpops, r, hoperand⟩
        exact (hother r hpops hoperand).elim
  rw [registerBound, Bool.or_eq_true, hpopped, Bool.and_eq_true, decide_eq_true_eq, GivesTarget]

theorem Slot.joined_eq_false_iff {slot : Slot} {a : UInt32} (ha : a ∈ slot.input.sources) :
    slot.joined = false ↔ slot.input.sources.toList = [a] := by
  rw [joined, decide_eq_false_iff_not, OffsetSet.size]
  constructor
  · intro hfew
    obtain ⟨source, hsource⟩ := List.length_eq_one_iff.1
      (Nat.le_antisymm (Nat.le_of_not_lt hfew) (List.length_pos_of_mem ha))
    rw [← OffsetSet.mem_toList, hsource, List.mem_singleton] at ha
    rw [hsource, ha]
  · intro hsources
    rw [hsources]
    exact Nat.lt_irrefl 1

theorem Instruction.snapshotsRegister_iff {i : Instruction} :
    i.snapshotsRegister = true ↔ i.PushesRegister := by
  rw [snapshotsRegister, PushesRegister]
  cases i.operand <;> simp

namespace Graph

variable {graph : Graph} {offset : UInt32} {slot : Slot}

theorem nodup_slots (graph : Graph) : graph.slots.Nodup :=
  graph.nodup_variableNames.of_map _

theorem readsOf_eq_singleton_iff : readsOf graph.slots offset = [slot] ↔
    slot ∈ graph.slots ∧ offset ∈ slot.input.sources ∧
      ∀ other ∈ graph.slots, offset ∈ other.input.sources → other = slot := by
  constructor
  · intro hreads
    have hslot := mem_readsOf.1 (hreads ▸ List.mem_singleton_self slot)
    refine ⟨hslot.1, hslot.2, fun other hother hread => ?_⟩
    have hmem := mem_readsOf.2 ⟨hother, hread⟩
    rw [hreads] at hmem
    exact List.mem_singleton.1 hmem
  · rintro ⟨hslot, hread, honly⟩
    have hperm : (readsOf graph.slots offset).Perm [slot] := by
      refine (List.perm_ext_iff_of_nodup (graph.nodup_slots.filter _)
        (List.nodup_singleton slot)).2 fun other => ?_
      rw [List.mem_singleton]
      constructor
      · exact fun hother => honly other (mem_readsOf.1 hother).1 (mem_readsOf.1 hother).2
      · rintro rfl
        exact mem_readsOf.2 ⟨hslot, hread⟩
    exact List.perm_singleton.1 hperm

/-- What is inlined is inlinable, and all that is inlinable is inlined. -/
theorem mem_inlined_iff_inlinable : offset ∈ graph.placement.inlined ↔ graph.Inlinable offset := by
  rw [mem_inlined_iff]
  constructor
  · rintro ⟨node, hnode, hinline⟩
    rw [Node.isInlined, Bool.and_eq_true, decide_eq_true_eq] at hinline
    obtain ⟨slot, hreads⟩ := List.length_eq_one_iff.1 hinline.2
    obtain ⟨hslot, hread, honly⟩ := readsOf_eq_singleton_iff.1 hreads
    have hstore := hinline.1
    rw [Node.mustStore, hreads] at hstore
    simp only [List.length_singleton, List.any_cons, List.any_nil, Bool.or_false, Bool.not_eq_true',
      Bool.or_eq_false_iff, lt_irrefl, decide_false, true_and] at hstore
    obtain ⟨hsnapshot, hbound, hjoined⟩ := hstore
    rw [Bool.eq_false_iff, Ne, Slot.registerBound_iff, not_or] at hbound
    rw [Bool.eq_false_iff, Ne, Instruction.snapshotsRegister_iff] at hsnapshot
    exact ⟨slot, hslot, (Slot.joined_eq_false_iff hread).1 hjoined, honly, hbound.1, hbound.2,
      node, hnode, hsnapshot⟩
  · rintro ⟨slot, hslot, hsources, honly, hpops, htarget, node, hnode, hpushes⟩
    have hread : offset ∈ slot.input.sources := by
      rw [← OffsetSet.mem_toList, hsources]
      exact List.mem_singleton_self offset
    have hjoined := (Slot.joined_eq_false_iff hread).2 hsources
    have hbound : slot.registerBound = false :=
      Bool.eq_false_iff.2 fun h => (Slot.registerBound_iff.1 h).elim hpops htarget
    have hsnapshot : node.snapshotsRegister = false :=
      Bool.eq_false_iff.2 fun h => hpushes (Instruction.snapshotsRegister_iff.1 h)
    refine ⟨node, hnode, ?_⟩
    rw [Node.isInlined, Node.mustStore, readsOf_eq_singleton_iff.2 ⟨hslot, hread, honly⟩]
    simp [hsnapshot, hbound, hjoined]

theorem Inlines.read (h : graph.Inlines slot offset) : offset ∈ slot.input.sources := by
  rw [← OffsetSet.mem_toList, h.sources]
  exact List.mem_singleton_self offset

theorem Inlines.mem_inlined (h : graph.Inlines slot offset) : offset ∈ graph.placement.inlined :=
  mem_inlined_iff_inlinable.2 ⟨slot, h⟩

theorem inlines_of_read (hinlined : offset ∈ graph.placement.inlined) (hslot : slot ∈ graph.slots)
    (hread : offset ∈ slot.input.sources) : graph.Inlines slot offset := by
  obtain ⟨other, hother⟩ := mem_inlined_iff_inlinable.1 hinlined
  rwa [← hother.only slot hslot hread] at hother

end Graph

end StackLift
