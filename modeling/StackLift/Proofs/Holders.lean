import StackLift.Listing.Build
import StackLift.Proofs.Classes
import StackLift.Proofs.Slots

namespace StackLift

namespace VariableTable

theorem index?_eq_none_iff {table : VariableTable} {name : String} :
    table.index? name = none ↔ name ∉ table.toList.map Variable.name := by
  rw [index?, List.findIdx?_eq_none_iff, List.mem_map]
  constructor
  · rintro h ⟨v, hv, rfl⟩
    simpa using h v hv
  · intro h v hv
    rw [decide_eq_false_iff_not]
    intro heq
    exact h ⟨v, hv, heq⟩

theorem insert_of_not_mem {table : VariableTable} {name : String} (kind : ValueKind)
    (h : name ∉ table.toList.map Variable.name) :
    table.insert name kind = (table.size, ⟨table.toList ++ [⟨name, kind, []⟩]⟩) := by
  rw [insert, index?_eq_none_iff.2 h]

theorem names_registers : registers.toList.map Variable.name = Register.all.map Register.name := by
  decide

end VariableTable

section

variable {forest : Forest} {stored : OffsetSet} {slots : List Slot}

theorem introductions_cons {slot : Slot} {first : UInt32} {others : List UInt32}
    (h : slot.storedProducers stored = first :: others) (rest : List Slot) (named : OffsetSet) :
    introductions forest stored (slot :: rest) named =
      if forest.root first ∈ named then introductions forest stored rest named
      else ⟨slot.variableName, slot.input.kind, forest.root first, first :: others⟩ ::
        introductions forest stored rest (named.insert (forest.root first)) := by
  rw [introductions, h]

theorem introductions_cons_of_nil {slot : Slot} (h : slot.storedProducers stored = [])
    (rest : List Slot) (named : OffsetSet) :
    introductions forest stored (slot :: rest) named = introductions forest stored rest named := by
  rw [introductions, h]

theorem names_introductions (forest : Forest) (stored : OffsetSet) (slots : List Slot)
    (named : OffsetSet) :
    ((introductions forest stored slots named).map Introduction.name).Sublist
      (slots.map Slot.variableName) := by
  induction slots generalizing named with
  | nil => exact List.Sublist.refl _
  | cons slot rest ih =>
    cases hstored : slot.storedProducers stored with
    | nil =>
      rw [introductions_cons_of_nil hstored]
      exact (ih named).cons _
    | cons first others =>
      rw [introductions_cons hstored]
      split
      · exact (ih named).cons _
      · exact (ih _).cons_cons _

theorem exists_introduction {named : OffsetSet} {slot : Slot} (hslot : slot ∈ slots)
    {first : UInt32} {others : List UInt32}
    (hstored : slot.storedProducers stored = first :: others) :
    forest.root first ∈ named ∨ ∃ introduction ∈ introductions forest stored slots named,
      introduction.root = forest.root first := by
  induction slots generalizing named with
  | nil => cases hslot
  | cons other rest ih =>
    rcases List.mem_cons.1 hslot with rfl | hslot
    · rw [introductions_cons hstored]
      split
      · next hnamed => exact .inl hnamed
      · exact .inr ⟨_, List.mem_cons_self, rfl⟩
    · cases hother : other.storedProducers stored with
      | nil =>
        rw [introductions_cons_of_nil hother]
        exact ih hslot
      | cons first' others' =>
        rw [introductions_cons hother]
        split
        · exact ih hslot
        · rcases ih hslot with hmem | ⟨i, hi, hroot⟩
          · rcases OffsetSet.mem_insert.1 hmem with heq | hmem
            · exact .inr ⟨_, List.mem_cons_self, heq.symm⟩
            · exact .inl hmem
          · exact .inr ⟨i, List.mem_cons_of_mem _ hi, hroot⟩

structure Introduces (forest : Forest) (stored : OffsetSet) (before : List Slot) (slot : Slot)
    (introduction : Introduction) : Prop where
  name : introduction.name = slot.variableName
  kind : introduction.kind = slot.input.kind
  root : ∃ first ∈ slot.storedProducers stored, introduction.root = forest.root first
  first : ∀ other ∈ before, ∀ a others, other.storedProducers stored = a :: others →
    forest.root a ≠ introduction.root

variable {introduction : Introduction}

theorem Introduces.cons {before : List Slot} {slot other : Slot}
    (h : Introduces forest stored before slot introduction)
    (hother : ∀ a others, other.storedProducers stored = a :: others →
      forest.root a ≠ introduction.root) :
    Introduces forest stored (other :: before) slot introduction :=
  ⟨h.name, h.kind, h.root,
    fun s hs => (List.mem_cons.1 hs).elim (fun heq => heq ▸ hother) (h.first s)⟩

theorem introduces_of_mem {named : OffsetSet}
    (h : introduction ∈ introductions forest stored slots named) :
    introduction.root ∉ named ∧ ∃ before slot behind, slots = before ++ slot :: behind ∧
      Introduces forest stored before slot introduction := by
  induction slots generalizing named with
  | nil => cases h
  | cons other rest ih =>
    have hlater : ∀ {later : OffsetSet}, introduction ∈ introductions forest stored rest later →
        (introduction.root ∉ later → ∀ a others, other.storedProducers stored = a :: others →
          forest.root a ≠ introduction.root) →
        introduction.root ∉ later ∧ ∃ before slot behind,
          other :: rest = before ++ slot :: behind ∧
            Introduces forest stored before slot introduction := by
      intro later hmem hother
      obtain ⟨hroot, before, slot, behind, rfl, hslot⟩ := ih hmem
      exact ⟨hroot, other :: before, slot, behind, rfl, hslot.cons (hother hroot)⟩
    cases hstored : other.storedProducers stored with
    | nil =>
      rw [introductions_cons_of_nil hstored] at h
      apply hlater h
      intro _ a others heq
      rw [hstored] at heq
      cases heq
    | cons first others =>
      rw [introductions_cons hstored] at h
      split at h
      · next hnamed =>
        apply hlater h
        rintro hroot a _ heq hclass
        rw [hstored] at heq
        cases heq
        exact hroot (hclass ▸ hnamed)
      · next hnamed =>
        rcases List.mem_cons.1 h with rfl | h
        · refine ⟨hnamed, [], other, rest, rfl, rfl, rfl, ⟨first, ?_, rfl⟩, ?_⟩
          · rw [hstored]
            exact List.mem_cons_self
          · exact fun _ hmem => (nomatch hmem)
        · have hbehind := hlater h (by
            rintro hroot a _ heq hclass
            rw [hstored] at heq
            cases heq
            exact hroot (OffsetSet.mem_insert.2 (.inl hclass.symm)))
          exact ⟨fun hmem => hbehind.1 (OffsetSet.mem_insert.2 (.inr hmem)), hbehind.2⟩

theorem nodup_roots (forest : Forest) (stored : OffsetSet) (slots : List Slot)
    (named : OffsetSet) :
    ((introductions forest stored slots named).map Introduction.root).Nodup := by
  induction slots generalizing named with
  | nil => exact List.nodup_nil
  | cons slot rest ih =>
    cases hstored : slot.storedProducers stored with
    | nil =>
      rw [introductions_cons_of_nil hstored]
      exact ih named
    | cons first others =>
      rw [introductions_cons hstored]
      split
      · exact ih named
      · refine List.nodup_cons.2 ⟨?_, ih _⟩
        intro hmem
        obtain ⟨introduction, hmem, hroot⟩ := List.mem_map.1 hmem
        exact (introduces_of_mem hmem).1 (OffsetSet.mem_insert.2 (.inl hroot))

end

namespace Naming

structure Apart (naming : Naming) : Prop where
  registers : ∃ more, naming.table.toList = VariableTable.registers.toList ++ more
  bounds : ∀ root index, naming.classes.get? root = some index →
    VariableTable.registers.size ≤ index ∧ index < naming.table.size
  eq_of_index : ∀ root other index, naming.classes.get? root = some index →
    naming.classes.get? other = some index → root = other

variable {naming : Naming} {introduction : Introduction} {rest : List Introduction}

theorem introduce_of_not_mem
    (hnew : introduction.name ∉ naming.table.toList.map Variable.name) :
    naming.introduce introduction =
      { naming with
        classes := naming.classes.insert introduction.root naming.table.size
        table := ⟨naming.table.toList ++ [⟨introduction.name, introduction.kind, []⟩]⟩ } := by
  rw [introduce, VariableTable.insert_of_not_mem introduction.kind hnew]

theorem Apart.introduce (h : naming.Apart)
    (hnew : introduction.name ∉ naming.table.toList.map Variable.name) :
    (naming.introduce introduction).Apart := by
  obtain ⟨more, hmore⟩ := h.registers
  have hle : VariableTable.registers.size ≤ naming.table.size := by
    rw [VariableTable.size, VariableTable.size, hmore, List.length_append]
    exact Nat.le_add_right _ _
  have hsize : (naming.introduce introduction).table.size = naming.table.size + 1 := by
    rw [introduce_of_not_mem hnew, VariableTable.size, List.length_append]
    rfl
  have hget : ∀ root, (naming.introduce introduction).classes.get? root =
      if root = introduction.root then some naming.table.size
      else naming.classes.get? root := by
    intro root
    rw [introduce_of_not_mem hnew]
    exact OffsetMap.get?_insert ..
  refine ⟨⟨more ++ [⟨introduction.name, introduction.kind, []⟩], ?_⟩, ?_, ?_⟩
  · rw [introduce_of_not_mem hnew, hmore, List.append_assoc]
  · intro root index hindex
    rw [hget] at hindex
    rw [hsize]
    split at hindex
    · cases hindex
      exact ⟨hle, Nat.lt_succ_self _⟩
    · obtain ⟨hlower, hupper⟩ := h.bounds root index hindex
      exact ⟨hlower, Nat.lt_succ_of_lt hupper⟩
  · intro root other index hroot hother
    rw [hget] at hroot hother
    -- The new index is beyond those of the classes that were bound before.
    split at hroot
    · next heq =>
      split at hother
      · next heq' => exact heq.trans heq'.symm
      · cases hroot
        exact absurd (h.bounds other _ hother).2 (Nat.lt_irrefl _)
    · split at hother
      · cases hother
        exact absurd (h.bounds root _ hroot).2 (Nat.lt_irrefl _)
      · exact h.eq_of_index root other index hroot hother

theorem fresh_of_nodup
    (hnames : (naming.table.toList.map Variable.name ++
      (introduction :: rest).map Introduction.name).Nodup) :
    introduction.name ∉ naming.table.toList.map Variable.name ∧
      ((naming.introduce introduction).table.toList.map Variable.name ++
        rest.map Introduction.name).Nodup := by
  have hnew : introduction.name ∉ naming.table.toList.map Variable.name := by
    intro hmem
    exact (List.nodup_append.1 hnames).2.2 _ hmem _ List.mem_cons_self rfl
  refine ⟨hnew, ?_⟩
  rw [introduce_of_not_mem hnew]
  simpa using hnames

theorem Apart.foldl_introduce (h : naming.Apart)
    (hnames : (naming.table.toList.map Variable.name ++ rest.map Introduction.name).Nodup) :
    (rest.foldl Naming.introduce naming).Apart := by
  induction rest generalizing naming with
  | nil => exact h
  | cons introduction rest ih =>
    obtain ⟨hnew, hrest⟩ := fresh_of_nodup hnames
    exact ih (h.introduce hnew) hrest

theorem toList_foldl_introduce
    (hnames : (naming.table.toList.map Variable.name ++ rest.map Introduction.name).Nodup) :
    (rest.foldl introduce naming).table.toList =
      naming.table.toList ++ rest.map fun i => ⟨i.name, i.kind, []⟩ := by
  induction rest generalizing naming with
  | nil => exact (List.append_nil _).symm
  | cons introduction rest ih =>
    obtain ⟨hnew, hrest⟩ := fresh_of_nodup hnames
    rw [List.foldl_cons, ih hrest, introduce_of_not_mem hnew, List.append_assoc]
    rfl

theorem get?_introduce (naming : Naming) (introduction : Introduction) (root : UInt32) :
    (naming.introduce introduction).classes.get? root =
      if root = introduction.root
      then some (naming.table.insert introduction.name introduction.kind).1
      else naming.classes.get? root :=
  OffsetMap.get?_insert ..

theorem get?_foldl_introduce_of_ne {root : UInt32}
    (h : ∀ introduction ∈ rest, introduction.root ≠ root) :
    (rest.foldl introduce naming).classes.get? root = naming.classes.get? root := by
  induction rest generalizing naming with
  | nil => rfl
  | cons introduction rest ih =>
    rw [List.foldl_cons, ih fun i hi => h i (List.mem_cons_of_mem _ hi), get?_introduce,
      if_neg (h introduction List.mem_cons_self).symm]

theorem get?_foldl_introduce {k : Nat}
    (hnames : (naming.table.toList.map Variable.name ++ rest.map Introduction.name).Nodup)
    (hroots : (rest.map Introduction.root).Nodup) (hk : rest[k]? = some introduction) :
    (rest.foldl introduce naming).classes.get? introduction.root =
      some (naming.table.size + k) := by
  induction rest generalizing naming k with
  | nil => cases hk
  | cons first rest ih =>
    obtain ⟨hnew, hrest⟩ := fresh_of_nodup hnames
    obtain ⟨hfirst, hroots⟩ := List.nodup_cons.1 hroots
    cases k with
    | zero =>
      cases hk
      have hne : ∀ i ∈ rest, i.root ≠ introduction.root :=
        fun i hi heq => hfirst (heq ▸ List.mem_map_of_mem hi)
      rw [List.foldl_cons, get?_foldl_introduce_of_ne hne, get?_introduce, if_pos rfl,
        VariableTable.insert_of_not_mem _ hnew]
      rfl
    | succ k =>
      have hsize : (naming.introduce first).table.size = naming.table.size + 1 := by
        rw [introduce_of_not_mem hnew, VariableTable.size, List.length_append]
        rfl
      rw [List.foldl_cons, ih hrest hroots hk, hsize, Nat.add_assoc, Nat.add_comm 1]

theorem introduction_of_class {root : UInt32}
    (h : ((rest.foldl introduce naming).classes.get? root).isSome) :
    (naming.classes.get? root).isSome ∨ ∃ introduction ∈ rest, introduction.root = root := by
  by_contra hnone
  rw [not_or] at hnone
  have hne : ∀ introduction ∈ rest, introduction.root ≠ root :=
    fun introduction hmem hroot => hnone.2 ⟨introduction, hmem, hroot⟩
  rw [get?_foldl_introduce_of_ne hne] at h
  exact hnone.1 h

theorem isSome_foldl_introduce {root : UInt32}
    (h : (naming.classes.get? root).isSome ∨ ∃ introduction ∈ rest, introduction.root = root) :
    ((rest.foldl introduce naming).classes.get? root).isSome := by
  induction rest generalizing naming with
  | nil => exact h.elim id fun ⟨_, hmem, _⟩ => (nomatch hmem)
  | cons introduction rest ih =>
    apply ih
    rw [get?_introduce]
    rcases h with h | ⟨i, hi, hroot⟩
    · refine .inl ?_
      split
      · rfl
      · exact h
    · rcases List.mem_cons.1 hi with rfl | hi
      · rw [if_pos hroot.symm]
        exact .inl rfl
      · exact .inr ⟨i, hi, hroot⟩

theorem foldl_introduce_stored (naming : Naming) (rest : List Introduction) :
    (rest.foldl introduce naming).stored = naming.stored ∧
      (rest.foldl introduce naming).forest = naming.forest := by
  induction rest generalizing naming with
  | nil => exact ⟨rfl, rfl⟩
  | cons introduction rest ih => exact ih (naming.introduce introduction)

end Naming

namespace Graph

variable {graph : Graph} {stored : OffsetSet}

/-- Two producers are linked by a chain of slots in which stored producers meet. -/
def Linked (graph : Graph) (a b : UInt32) : Prop :=
  Relation.EqvGen (Meet graph.slots graph.placement.stored) a b

theorem stored_naming (graph : Graph) (stored : OffsetSet) :
    (graph.naming stored).stored = stored :=
  (Naming.foldl_introduce_stored _ _).1

theorem forest_naming (graph : Graph) (stored : OffsetSet) :
    (graph.naming stored).forest = joinProducers graph.slots stored :=
  (Naming.foldl_introduce_stored _ _).2

theorem nodup_names (graph : Graph) (stored : OffsetSet) :
    (VariableTable.registers.toList.map Variable.name ++
      (graph.introductions stored).map Introduction.name).Nodup := by
  have hsublist := names_introductions (joinProducers graph.slots stored) stored graph.slots .empty
  rw [VariableTable.names_registers, List.nodup_append]
  refine ⟨by decide, hsublist.nodup graph.nodup_variableNames, ?_⟩
  intro name hname other hother heq
  obtain ⟨r, _, rfl⟩ := List.mem_map.1 hname
  obtain ⟨slot, _, rfl⟩ := List.mem_map.1 (hsublist.subset hother)
  exact slot.variableName_ne_name r heq.symm

theorem apart_naming (graph : Graph) (stored : OffsetSet) : (graph.naming stored).Apart := by
  have hstart : (⟨stored, joinProducers graph.slots stored, .empty, .registers⟩ : Naming).Apart :=
    ⟨⟨[], (List.append_nil _).symm⟩, fun _ _ h => (nomatch h), fun _ _ _ h => (nomatch h)⟩
  exact hstart.foldl_introduce (graph.nodup_names stored)

theorem toList_naming (graph : Graph) (stored : OffsetSet) :
    (graph.naming stored).table.toList = VariableTable.registers.toList ++
      (graph.introductions stored).map fun i => ⟨i.name, i.kind, []⟩ :=
  Naming.toList_foldl_introduce (graph.nodup_names stored)

theorem get?_naming {k : Nat} {introduction : Introduction}
    (hk : (graph.introductions stored)[k]? = some introduction) :
    (graph.naming stored).classes.get? introduction.root =
      some (VariableTable.registers.size + k) :=
  Naming.get?_foldl_introduce (graph.nodup_names stored) (nodup_roots ..) hk

theorem holder?_of_mem {a : UInt32} (ha : a ∈ stored) :
    (graph.naming stored).holder? a =
      (graph.naming stored).classes.get? ((joinProducers graph.slots stored).root a) := by
  rw [Naming.holder?, stored_naming, forest_naming, if_pos ha]

theorem mem_stored_of_holder? {a : UInt32} {index : Nat}
    (h : (graph.naming stored).holder? a = some index) : a ∈ stored := by
  rw [Naming.holder?, stored_naming] at h
  split at h
  · assumption
  · cases h

/-- What has a variable is of a class that is introduced. -/
theorem introduction_of_holder? {a : UInt32} {index : Nat}
    (h : (graph.naming stored).holder? a = some index) :
    ∃ k introduction, (graph.introductions stored)[k]? = some introduction ∧
      introduction.root = (joinProducers graph.slots stored).root a ∧
      index = VariableTable.registers.size + k := by
  rw [holder?_of_mem (mem_stored_of_holder? h)] at h
  have hclass := Naming.introduction_of_class (Option.isSome_iff_exists.2 ⟨index, h⟩)
  obtain ⟨introduction, hmem, hroot⟩ := hclass.resolve_left fun h => (nomatch h)
  obtain ⟨k, hk⟩ := List.getElem?_of_mem hmem
  have hindex := get?_naming hk
  rw [hroot, h] at hindex
  exact ⟨k, introduction, hk, hroot, Option.some.inj hindex⟩

/-- Every stored producer that a slot reads has a variable. -/
theorem exists_holder? {slot : Slot} (hslot : slot ∈ graph.slots) {a : UInt32}
    (ha : a ∈ slot.storedProducers stored) :
    ∃ index, (graph.naming stored).holder? a = some index := by
  have hstored : a ∈ stored := by simpa using (List.mem_filter.1 ha).2
  rw [holder?_of_mem hstored, ← Option.isSome_iff_exists]
  apply Naming.isSome_foldl_introduce
  cases hproducers : slot.storedProducers stored with
  | nil =>
    rw [hproducers] at ha
    cases ha
  | cons first others =>
    have hfirst : first ∈ slot.storedProducers stored := by
      rw [hproducers]
      exact List.mem_cons_self
    have hroot : (joinProducers graph.slots stored).root first =
        (joinProducers graph.slots stored).root a :=
      root_joinProducers_eq_iff.2 (.rel first a ⟨slot, hslot, hfirst, ha⟩)
    have hnamed : (joinProducers graph.slots stored).root first ∈ OffsetSet.empty ∨
        ∃ introduction ∈ graph.introductions stored,
          introduction.root = (joinProducers graph.slots stored).root first :=
      exists_introduction hslot hproducers
    rw [← hroot]
    exact .inr (hnamed.resolve_left (OffsetSet.not_mem_empty _))

theorem Linked.mem_stored_iff {a b : UInt32} (h : graph.Linked a b) :
    a ∈ graph.placement.stored ↔ b ∈ graph.placement.stored := by
  induction h with
  | refl a => exact Iff.rfl
  | symm a b _ ih => exact ih.symm
  | trans a b c _ _ hab hbc => exact hab.trans hbc
  | rel a b hmeet =>
    obtain ⟨slot, _, ha, hb⟩ := hmeet
    have hastored : a ∈ graph.placement.stored := by simpa using (List.mem_filter.1 ha).2
    have hbstored : b ∈ graph.placement.stored := by simpa using (List.mem_filter.1 hb).2
    exact ⟨fun _ => hbstored, fun _ => hastored⟩

theorem holder?_eq_some_iff {a b : UInt32} {index : Nat}
    (ha : graph.outline.naming.holder? a = some index) :
    graph.outline.naming.holder? b = some index ↔ graph.Linked a b := by
  change (graph.naming graph.placement.stored).holder? a = some index at ha
  change (graph.naming graph.placement.stored).holder? b = some index ↔ graph.Linked a b
  have hastored := mem_stored_of_holder? ha
  rw [holder?_of_mem hastored] at ha
  constructor
  · intro hb
    have hbstored := mem_stored_of_holder? hb
    rw [holder?_of_mem hbstored] at hb
    exact root_joinProducers_eq_iff.1
      ((graph.apart_naming graph.placement.stored).eq_of_index _ _ index ha hb)
  · intro hlinked
    rw [holder?_of_mem (hlinked.mem_stored_iff.1 hastored), ← ha]
    exact congrArg _ (root_joinProducers_eq_iff.2 hlinked).symm

end Graph

end StackLift
