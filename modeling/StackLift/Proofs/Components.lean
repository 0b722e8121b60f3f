import Mathlib.Data.Set.Card
import StackLift.Proofs.Placing

namespace StackLift

theorem Site.eq_of_not_before {a b : Site} (hab : a.before b = false) (hba : b.before a = false) :
    a = b := by
  rw [Bool.eq_false_iff, Ne, before_iff, not_or, not_and] at hab hba
  have hoffset : a.offset = b.offset :=
    UInt32.le_antisymm (UInt32.not_lt.1 hba.1) (UInt32.not_lt.1 hab.1)
  have hslot : a.slot = b.slot :=
    Nat.le_antisymm (Nat.le_of_not_lt (hba.2 hoffset.symm)) (Nat.le_of_not_lt (hab.2 hoffset))
  cases a
  cases b
  exact congrArg₂ Site.mk hoffset hslot

namespace VariableTable

theorem size_registers : registers.size = 16 := by
  decide

theorem get?_registers (r : Register) :
    registers.toList[(r.index : Nat)]? = some ⟨r.name, .object, []⟩ := by
  cases r <;> decide

end VariableTable

namespace Graph

variable {graph : Graph} {a b : UInt32} {slot : Slot} {index k : Nat} {introduction : Introduction}

/-- A stored producer: an instruction that a slot reads and that is not inlined. -/
structure Stores (graph : Graph) (a : UInt32) : Prop where
  found : graph.contains a = true
  read : graph.IsRead a
  kept : a ∉ graph.placement.inlined

/-- One slot reads both of two stored producers. -/
structure Joins (graph : Graph) (a b : UInt32) : Prop where
  left : graph.Stores a
  right : graph.Stores b
  slot : ∃ slot ∈ graph.slots, a ∈ slot.input.sources ∧ b ∈ slot.input.sources

def Connected (graph : Graph) (a b : UInt32) : Prop :=
  Relation.EqvGen graph.Joins a b

def component (graph : Graph) (a : UInt32) : Set UInt32 :=
  {b | graph.Stores b ∧ graph.Connected a b}

def components (graph : Graph) : Set (Set UInt32) :=
  graph.component '' {a | graph.Stores a}

/-- No slot that stands before this one reads a member of the class. -/
structure FirstReads (graph : Graph) (members : Set UInt32) (slot : Slot) : Prop where
  mem : slot ∈ graph.slots
  reads : ∃ a ∈ members, a ∈ slot.input.sources
  first : ∀ other ∈ graph.slots, (∃ a ∈ members, a ∈ other.input.sources) →
    other.site.before slot.site = false

/-- The variables of a naming are the registers and the components of the graph. -/
structure Represents (graph : Graph) (naming : Naming) : Prop where
  registers : ∀ r : Register, naming.table.get? r.index = some ⟨r.name, .object, []⟩
  size : naming.table.size = 16 + graph.components.ncard
  bound : ∀ a, (naming.holder? a).isSome ↔ graph.Stores a
  shares : ∀ a b, graph.Stores a → graph.Stores b →
    (naming.holder? a = naming.holder? b ↔ graph.Connected a b)
  named : ∀ a index, naming.holder? a = some index → 16 ≤ index ∧
    ∃ slot, graph.FirstReads (graph.component a) slot ∧
      naming.table.get? index = some ⟨slot.variableName, slot.input.kind, []⟩
  held : ∀ index, 16 ≤ index → index < naming.table.size → ∃ a, naming.holder? a = some index
  ascending : ∀ a b i j s t, naming.holder? a = some i → naming.holder? b = some j →
    graph.FirstReads (graph.component a) s → graph.FirstReads (graph.component b) t →
    (i < j ↔ s.site.before t.site = true)

theorem stores_iff : graph.Stores a ↔ a ∈ graph.placement.stored ∧ graph.IsRead a := by
  constructor
  · rintro ⟨hfound, hread, hkept⟩
    refine ⟨?_, hread⟩
    obtain ⟨slot, hslot, hsource⟩ := hread
    by_contra hstored
    exact hkept (mem_inlined_of_not_stored hslot hsource hfound hstored)
  · rintro ⟨hstored, hread⟩
    obtain ⟨node, hnode, _⟩ := mem_stored_iff.1 hstored
    exact ⟨contains_iff.2 ⟨node, hnode⟩, hread, not_mem_inlined_of_stored hstored⟩

theorem mem_storedProducers_iff :
    a ∈ slot.storedProducers graph.placement.stored ↔
      a ∈ slot.input.sources ∧ a ∈ graph.placement.stored := by
  rw [Slot.storedProducers, List.mem_filter, decide_eq_true_eq, OffsetSet.mem_toList]

theorem stores_of_mem (hslot : slot ∈ graph.slots)
    (ha : a ∈ slot.storedProducers graph.placement.stored) : graph.Stores a := by
  obtain ⟨hsource, hstored⟩ := mem_storedProducers_iff.1 ha
  exact stores_iff.2 ⟨hstored, slot, hslot, hsource⟩

theorem joins_iff_meet : graph.Joins a b ↔ Meet graph.slots graph.placement.stored a b := by
  constructor
  · rintro ⟨ha, hb, slot, hslot, hreada, hreadb⟩
    exact ⟨slot, hslot, mem_storedProducers_iff.2 ⟨hreada, (stores_iff.1 ha).1⟩,
      mem_storedProducers_iff.2 ⟨hreadb, (stores_iff.1 hb).1⟩⟩
  · rintro ⟨slot, hslot, ha, hb⟩
    exact ⟨stores_of_mem hslot ha, stores_of_mem hslot hb, slot, hslot,
      (mem_storedProducers_iff.1 ha).1, (mem_storedProducers_iff.1 hb).1⟩

theorem connected_iff_linked : graph.Connected a b ↔ graph.Linked a b :=
  ⟨fun h => Relation.EqvGen.mono (fun _ _ hab => joins_iff_meet.1 hab) _ _ h,
    fun h => Relation.EqvGen.mono (fun _ _ hab => joins_iff_meet.2 hab) _ _ h⟩

def rootOf (graph : Graph) (a : UInt32) : UInt32 :=
  (joinProducers graph.slots graph.placement.stored).root a

theorem connected_iff : graph.Connected a b ↔ graph.rootOf a = graph.rootOf b :=
  connected_iff_linked.trans root_joinProducers_eq_iff.symm

theorem mem_component_iff :
    b ∈ graph.component a ↔ graph.Stores b ∧ graph.rootOf a = graph.rootOf b :=
  and_congr_right fun _ => connected_iff

theorem holder?_isSome_iff : (graph.outline.naming.holder? a).isSome ↔ graph.Stores a := by
  constructor
  · intro h
    obtain ⟨index, hindex⟩ := Option.isSome_iff_exists.1 h
    exact stores_iff.2 ⟨mem_stored_of_holder? hindex, isRead_of_holder? hindex⟩
  · intro h
    exact (isSome_holder?_iff h.found h.kept).2 h.read

theorem holder?_eq_iff (ha : graph.Stores a) :
    graph.outline.naming.holder? a = graph.outline.naming.holder? b ↔ graph.Connected a b := by
  obtain ⟨index, hindex⟩ := Option.isSome_iff_exists.1 (holder?_isSome_iff.2 ha)
  rw [hindex, eq_comm, holder?_eq_some_iff hindex, connected_iff_linked]

/-- The slot that an introduction is named after is the first to read a member of its class. -/
theorem exists_firstReads
    (hk : (graph.introductions graph.placement.stored)[k]? = some introduction)
    (hroot : introduction.root = graph.rootOf a) :
    ∃ slot, graph.FirstReads (graph.component a) slot ∧
      introduction.name = slot.variableName ∧ introduction.kind = slot.input.kind := by
  obtain ⟨_, before, slot, behind, hslots, hslot⟩ := introduces_of_mem (List.mem_of_getElem? hk)
  have hmem : slot ∈ graph.slots := by
    rw [hslots]
    exact List.mem_append_right _ List.mem_cons_self
  have hsorted := graph.pairwise_slots
  rw [hslots, List.pairwise_append, List.pairwise_cons] at hsorted
  refine ⟨slot, ⟨hmem, ?_, ?_⟩, hslot.name, hslot.kind⟩
  · obtain ⟨first, hfirst, hfirstroot⟩ := hslot.root
    exact ⟨first, mem_component_iff.2 ⟨stores_of_mem hmem hfirst, hroot.symm.trans hfirstroot⟩,
      (mem_storedProducers_iff.1 hfirst).1⟩
  · rintro other hother ⟨b, hb, hread⟩
    obtain ⟨hbstores, hbroot⟩ := mem_component_iff.1 hb
    have hbmem := mem_storedProducers_iff.2 ⟨hread, (stores_iff.1 hbstores).1⟩
    rw [hslots] at hother
    rcases List.mem_append.1 hother with hbefore | hbehind
    · cases hproducers : other.storedProducers graph.placement.stored with
      | nil =>
        rw [hproducers] at hbmem
        cases hbmem
      | cons c others =>
        -- The slot joins its producers, so its first one is of the class as well.
        have hmeet : Meet graph.slots graph.placement.stored c b :=
          ⟨other, hslots ▸ hother, by rw [hproducers]; exact List.mem_cons_self, hbmem⟩
        have hclass : graph.rootOf c = graph.rootOf b :=
          root_joinProducers_eq_iff.2 (.rel c b hmeet)
        exact absurd (hclass.trans (hbroot.symm.trans hroot.symm))
          (hslot.first other hbefore c others hproducers)
    · rcases List.mem_cons.1 hbehind with rfl | hbehind
      · exact Site.not_before_self _
      · exact Site.not_before_of_before (hsorted.2.1.1 other hbehind)

theorem FirstReads.site_eq {members : Set UInt32} {s t : Slot} (hs : graph.FirstReads members s)
    (ht : graph.FirstReads members t) : s.site = t.site :=
  Site.eq_of_not_before (ht.first s hs.mem hs.reads) (hs.first t ht.mem ht.reads)

theorem pairwise_introductions (graph : Graph) (stored : OffsetSet) :
    (graph.introductions stored).Pairwise fun i j => ∀ s t : Slot, i.name = s.variableName →
      j.name = t.variableName → s.site.before t.site = true := by
  have hnames : (graph.slots.map Slot.variableName).Pairwise fun m n => ∀ s t : Slot,
      m = s.variableName → n = t.variableName → s.site.before t.site = true := by
    rw [List.pairwise_map]
    refine graph.pairwise_slots.imp ?_
    intro s t hbefore s' t' hs ht
    rw [← Slot.site_eq_of_variableName_eq hs, ← Slot.site_eq_of_variableName_eq ht]
    exact hbefore
  exact List.pairwise_map.1 (hnames.sublist (names_introductions ..))

theorem exists_variable (h : graph.outline.naming.holder? a = some index) :
    ∃ k introduction slot, (graph.introductions graph.placement.stored)[k]? = some introduction ∧
      introduction.root = graph.rootOf a ∧ index = 16 + k ∧
      graph.FirstReads (graph.component a) slot ∧ introduction.name = slot.variableName ∧
      introduction.kind = slot.input.kind := by
  obtain ⟨k, introduction, hk, hroot, hindex⟩ := introduction_of_holder? h
  rw [VariableTable.size_registers] at hindex
  obtain ⟨slot, hfirst, hname, hkind⟩ := exists_firstReads hk hroot
  exact ⟨k, introduction, slot, hk, hroot, hindex, hfirst, hname, hkind⟩

theorem toList_table (graph : Graph) : graph.outline.naming.table.toList =
    VariableTable.registers.toList ++
      (graph.introductions graph.placement.stored).map fun i => ⟨i.name, i.kind, []⟩ :=
  toList_naming graph graph.placement.stored

theorem get?_variable (hk : (graph.introductions graph.placement.stored)[k]? = some introduction) :
    graph.outline.naming.table.get? (16 + k) =
      some ⟨introduction.name, introduction.kind, []⟩ := by
  have hlength : VariableTable.registers.toList.length = 16 := VariableTable.size_registers
  rw [VariableTable.get?, toList_table, List.getElem?_append_right (by omega), hlength,
    Nat.add_sub_cancel_left, List.getElem?_map, hk]
  rfl

theorem get?_register (graph : Graph) (r : Register) :
    graph.outline.naming.table.get? r.index = some ⟨r.name, .object, []⟩ := by
  have hget := VariableTable.get?_registers r
  obtain ⟨hlt, _⟩ := List.getElem?_eq_some_iff.1 hget
  rw [VariableTable.get?, toList_table, List.getElem?_append_left hlt]
  exact hget

theorem size_naming (graph : Graph) : graph.outline.naming.table.size =
    16 + (graph.introductions graph.placement.stored).length := by
  rw [VariableTable.size, toList_table, List.length_append, List.length_map]
  exact congrArg (· + _) VariableTable.size_registers

theorem exists_holder?_of_introduction
    (hk : (graph.introductions graph.placement.stored)[k]? = some introduction) :
    ∃ a, graph.Stores a ∧ introduction.root = graph.rootOf a ∧
      graph.outline.naming.holder? a = some (16 + k) := by
  obtain ⟨_, before, slot, behind, hslots, hslot⟩ := introduces_of_mem (List.mem_of_getElem? hk)
  obtain ⟨a, ha, hroot⟩ := hslot.root
  have hmem : slot ∈ graph.slots := by
    rw [hslots]
    exact List.mem_append_right _ List.mem_cons_self
  refine ⟨a, stores_of_mem hmem ha, hroot, ?_⟩
  have hclass := get?_naming hk
  rw [hroot, VariableTable.size_registers] at hclass
  exact (holder?_of_mem (mem_storedProducers_iff.1 ha).2).trans hclass

/-- There are as many components as introductions. -/
theorem ncard_components (graph : Graph) :
    graph.components.ncard = (graph.introductions graph.placement.stored).length := by
  have hroots : ((graph.introductions graph.placement.stored).map Introduction.root).Nodup :=
    nodup_roots ..
  apply Set.ncard_eq_of_bijective fun k hk =>
    {b | graph.Stores b ∧ (graph.introductions graph.placement.stored)[k].root = graph.rootOf b}
  · rintro _ ⟨a, ha, rfl⟩
    obtain ⟨index, hindex⟩ := Option.isSome_iff_exists.1 (holder?_isSome_iff.2 ha)
    obtain ⟨k, introduction, _, hk, hroot, _⟩ := exists_variable hindex
    obtain ⟨hlt, hget⟩ := List.getElem?_eq_some_iff.1 hk
    refine ⟨k, hlt, ?_⟩
    ext b
    rw [mem_component_iff, hget, hroot]
    exact Iff.rfl
  · intro k hk
    obtain ⟨a, ha, hroot, _⟩ := exists_holder?_of_introduction (List.getElem?_eq_getElem hk)
    refine ⟨a, ha, ?_⟩
    ext b
    rw [mem_component_iff, hroot]
    exact Iff.rfl
  · intro i j hi hj heq
    obtain ⟨a, ha, hroot, _⟩ := exists_holder?_of_introduction (List.getElem?_eq_getElem hi)
    have hmem : a ∈ {b | graph.Stores b ∧
        (graph.introductions graph.placement.stored)[j].root = graph.rootOf b} :=
      heq ▸ ⟨ha, hroot⟩
    have hsame := hroot.trans hmem.2.symm
    rw [← List.getElem_map Introduction.root (h := by simpa using hi),
      ← List.getElem_map Introduction.root (h := by simpa using hj)] at hsame
    exact hroots.getElem_inj_iff.1 hsame

section

variable {i j : Nat} {s t : Slot} (ha : graph.outline.naming.holder? a = some i)
  (hb : graph.outline.naming.holder? b = some j) (hs : graph.FirstReads (graph.component a) s)
  (ht : graph.FirstReads (graph.component b) t)
include ha hb hs ht

theorem before_of_lt (hlt : i < j) : s.site.before t.site = true := by
  obtain ⟨k, first, s', hk, _, rfl, hs', hname, _⟩ := exists_variable ha
  obtain ⟨l, later, t', hl, _, rfl, ht', hname', _⟩ := exists_variable hb
  obtain ⟨hklt, hkget⟩ := List.getElem?_eq_some_iff.1 hk
  obtain ⟨hllt, hlget⟩ := List.getElem?_eq_some_iff.1 hl
  have hpair := List.pairwise_iff_getElem.1 (graph.pairwise_introductions graph.placement.stored)
    k l hklt hllt (Nat.add_lt_add_iff_left.1 hlt)
  rw [hkget, hlget] at hpair
  rw [hs.site_eq hs', ht.site_eq ht']
  exact hpair s' t' hname hname'

theorem site_eq_of_eq (heq : i = j) : s.site = t.site := by
  obtain ⟨k, first, s', hk, _, hindex, hs', hname, _⟩ := exists_variable ha
  obtain ⟨l, later, t', hl, _, hindex', ht', hname', _⟩ := exists_variable hb
  have hkl : k = l := by omega
  rw [hkl, hl] at hk
  cases hk
  rw [hs.site_eq hs', ht.site_eq ht']
  exact Slot.site_eq_of_variableName_eq (hname.symm.trans hname')

end

/-- The variables of every graph, behind the registers, are the components of its joined
producers. -/
theorem naming_represents (graph : Graph) : graph.Represents graph.outline.naming where
  registers := graph.get?_register
  size := by rw [size_naming, ncard_components]
  bound _ := holder?_isSome_iff
  shares _ _ ha _ := holder?_eq_iff ha
  named a index h := by
    obtain ⟨k, introduction, slot, hk, _, rfl, hfirst, hname, hkind⟩ := exists_variable h
    refine ⟨Nat.le_add_right 16 k, slot, hfirst, ?_⟩
    rw [get?_variable hk, hname, hkind]
  held index hle hlt := by
    rw [size_naming] at hlt
    have hk : index - 16 < (graph.introductions graph.placement.stored).length := by omega
    obtain ⟨a, _, _, ha⟩ := exists_holder?_of_introduction (List.getElem?_eq_getElem hk)
    rw [Nat.add_sub_of_le hle] at ha
    exact ⟨a, ha⟩
  ascending a b i j s t ha hb hs ht := by
    constructor
    · exact before_of_lt ha hb hs ht
    · intro hbefore
      rcases Nat.lt_trichotomy i j with hlt | heq | hgt
      · exact hlt
      · rw [site_eq_of_eq ha hb hs ht heq, Site.not_before_self] at hbefore
        cases hbefore
      · rw [Site.not_before_of_before (before_of_lt hb ha ht hs hgt)] at hbefore
        cases hbefore

end Graph

namespace Discovery

/-- In the loop the values that are pushed at 0 and at 2 share a variable, which is first read at 7;
the target that is pushed at 11 has the other one. -/
theorem rotating_represents :
    ∃ graph, (rotating.discover [⟨0, 0⟩]).outcome = .ok graph ∧
      graph.Represents graph.outline.naming ∧ graph.components.ncard = 2 ∧
      graph.outline.naming.holder? 0 = some 16 ∧ graph.outline.naming.holder? 2 = some 16 ∧
      graph.outline.naming.holder? 11 = some 17 ∧
      (graph.outline.naming.table.toList.drop 16).map Variable.name = ["v_0007_0", "v_0010_0"] := by
  have hrun : (rotating.discoverWithin 40 [⟨0, 0⟩]).map (fun outcome => outcome.map
      fun graph => (graph.outline.naming.table.size, graph.outline.naming.holder? 0,
        graph.outline.naming.holder? 2, graph.outline.naming.holder? 11,
        (graph.outline.naming.table.toList.drop 16).map Variable.name)) =
      some (.ok (18, some 16, some 16, some 17, ["v_0007_0", "v_0010_0"])) := by cbv
  obtain ⟨graph, hgraph, hfacts⟩ := exists_discovered _ hrun
  simp only [Prod.mk.injEq] at hfacts
  obtain ⟨hsize, hfirst, hsecond, htarget, hnames⟩ := hfacts
  have hrepresents := graph.naming_represents
  have hcount := hrepresents.size
  rw [hsize] at hcount
  exact ⟨graph, hgraph, hrepresents, by omega, hfirst, hsecond, htarget, hnames⟩

end Discovery

end StackLift
