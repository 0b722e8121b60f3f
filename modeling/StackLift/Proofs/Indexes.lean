import StackLift.Proofs.Starts

namespace StackLift

inductive TableEdit where
  | insert (name : String) (kind : ValueKind)
  | addReader (index : Nat) (site : Site)
deriving DecidableEq

def TableEdit.inserted? : TableEdit → Option (String × ValueKind)
  | .insert name kind => some (name, kind)
  | .addReader _ _ => none

def insertions (edits : List TableEdit) : List (String × ValueKind) :=
  edits.filterMap TableEdit.inserted?

/-- A table of variables, and beside it the positions of their names. -/
structure IndexedTable extends VariableTable where
  positions : Std.HashMap String Nat

namespace VariableTable

variable {table : VariableTable} {name : String} {inserted : List (String × ValueKind)}

def edit (table : VariableTable) : TableEdit → VariableTable
  | .insert name kind => (table.insert name kind).2
  | .addReader index site => table.addReader index site

def editAll (table : VariableTable) (edits : List TableEdit) : VariableTable :=
  edits.foldl edit table

theorem editAll_append (table : VariableTable) (first rest : List TableEdit) :
    table.editAll (first ++ rest) = (table.editAll first).editAll rest :=
  List.foldl_append

theorem registers_eq :
    registers = empty.editAll (Register.all.map fun r => .insert r.name .object) := by
  rw [editAll, List.foldl_map]
  rfl

theorem addReaders_eq (table : VariableTable) (reads : List (Nat × Site)) :
    table.addReaders reads = table.editAll (reads.map fun read => .addReader read.1 read.2) := by
  rw [editAll, List.foldl_map]
  rfl

theorem names_eq (table : VariableTable) :
    table.declarations.map Prod.fst = table.toList.map Variable.name := by
  rw [declarations, List.map_map]
  rfl

theorem index?_eq (table : VariableTable) (name : String) :
    table.index? name = (table.declarations.map Prod.fst).findIdx? (· = name) := by
  rw [names_eq, List.findIdx?_map]
  rfl

theorem index?_eq_some_iff (hnodup : (table.declarations.map Prod.fst).Nodup) {i : Nat} :
    table.index? name = some i ↔ ∃ v, table.get? i = some v ∧ v.name = name := by
  have hposition : table.index? name = some i ↔
      (table.declarations.map Prod.fst)[i]? = some name := by
    rw [index?_eq, List.findIdx?_eq_some_iff_getElem, List.getElem?_eq_some_iff]
    constructor
    · rintro ⟨hlt, hname, _⟩
      exact ⟨hlt, of_decide_eq_true hname⟩
    · rintro ⟨hlt, hname⟩
      refine ⟨hlt, decide_eq_true hname, fun j hj hother => ?_⟩
      have hsame := (of_decide_eq_true hother).trans hname.symm
      exact absurd (hnodup.getElem_inj_iff.1 hsame) (Nat.ne_of_lt hj)
  rw [hposition, names_eq, List.getElem?_map, Option.map_eq_some_iff]
  rfl

/-- What a table has kept of the insertions so far: each name once, in the order in which they first
came, and with the kind that it first came with. -/
structure Recalls (table : VariableTable) (inserted : List (String × ValueKind)) : Prop where
  distinct : (table.declarations.map Prod.fst).Nodup
  order : table.declarations.map Prod.fst = (inserted.map Prod.fst).eraseDups
  kinds : ∀ declaration ∈ table.declarations,
    inserted.lookup declaration.1 = some declaration.2

theorem recalls_empty : empty.Recalls [] :=
  ⟨List.nodup_nil, rfl, fun _ h => absurd h List.not_mem_nil⟩

theorem declarations_insert (table : VariableTable) (name : String) (kind : ValueKind) :
    (table.insert name kind).2.declarations =
      if name ∈ table.declarations.map Prod.fst then table.declarations
      else table.declarations ++ [(name, kind)] := by
  rw [names_eq]
  split
  · next hold =>
    cases hindex : table.index? name with
    | none => exact absurd hold (index?_eq_none_iff.1 hindex)
    | some index => rw [insert, hindex]
  · next hnew =>
    rw [insert_of_not_mem kind hnew, declarations, List.map_append]
    rfl

theorem Recalls.insert (h : table.Recalls inserted) (name : String) (kind : ValueKind) :
    (table.insert name kind).2.Recalls (inserted ++ [(name, kind)]) := by
  have hkinds : ∀ declaration ∈ table.declarations,
      (inserted ++ [(name, kind)]).lookup declaration.1 = some declaration.2 := by
    intro declaration hmem
    rw [List.lookup_append, h.kinds declaration hmem, Option.some_or]
  have hmem : name ∈ table.declarations.map Prod.fst ↔ name ∈ inserted.map Prod.fst := by
    rw [h.order, List.mem_eraseDups]
  have hinsert := table.declarations_insert name kind
  by_cases hname : name ∈ inserted.map Prod.fst
  · rw [if_pos (hmem.2 hname)] at hinsert
    constructor
    · rw [hinsert]
      exact h.distinct
    · rw [hinsert, h.order, List.map_append, List.eraseDups_append]
      simp [List.removeAll, hname]
    · rw [hinsert]
      exact hkinds
  · rw [if_neg (mt hmem.1 hname)] at hinsert
    constructor
    · rw [hinsert, List.map_append, List.nodup_append]
      refine ⟨h.distinct, List.nodup_singleton name, ?_⟩
      rintro other hother _ hsame rfl
      rw [List.mem_singleton.1 hsame] at hother
      exact hname (hmem.1 hother)
    · rw [hinsert, List.map_append, List.map_append, h.order, List.eraseDups_append]
      simp [List.removeAll, List.eraseDups_cons, hname]
    · rw [hinsert]
      intro declaration hdeclared
      rcases List.mem_append.1 hdeclared with hdeclared | hdeclared
      · exact hkinds declaration hdeclared
      · rw [List.mem_singleton.1 hdeclared, List.lookup_append, List.lookup_eq_none_iff.2]
        · simp
        · intro other hother
          rw [bne_iff_ne]
          rintro rfl
          exact hname (List.mem_map_of_mem hother)

theorem Recalls.edit (h : table.Recalls inserted) (edit : TableEdit) :
    (table.edit edit).Recalls (inserted ++ insertions [edit]) := by
  cases edit with
  | insert name kind => exact h.insert name kind
  | addReader index site =>
    have hsame := table.declarations_addReader index site
    rw [insertions, List.filterMap_cons_none rfl, List.filterMap_nil, List.append_nil]
    constructor
    · rw [VariableTable.edit, hsame]
      exact h.distinct
    · rw [VariableTable.edit, hsame]
      exact h.order
    · rw [VariableTable.edit, hsame]
      exact h.kinds

theorem Recalls.editAll (h : table.Recalls inserted) (edits : List TableEdit) :
    (table.editAll edits).Recalls (inserted ++ insertions edits) := by
  induction edits generalizing table inserted with
  | nil =>
    rw [insertions, List.filterMap_nil, List.append_nil]
    exact h
  | cons edit rest ih =>
    have hrest := ih (h.edit edit)
    rw [List.append_assoc, insertions, insertions, ← List.filterMap_append] at hrest
    exact hrest

theorem get?_insert {i : Nat} {v : Variable} (h : table.get? i = some v) (name : String)
    (kind : ValueKind) : (table.insert name kind).2.get? i = some v := by
  rw [insert]
  split
  · exact h
  · obtain ⟨hlt, _⟩ := List.getElem?_eq_some_iff.1 h
    rw [get?, List.getElem?_append_left hlt]
    exact h

theorem get?_editAll_insert {i : Nat} {v : Variable} (h : table.get? i = some v)
    (later : List (String × ValueKind)) :
    (table.editAll (later.map fun insertion => .insert insertion.1 insertion.2)).get? i =
      some v := by
  induction later generalizing table with
  | nil => exact h
  | cons insertion rest ih => exact ih (get?_insert h insertion.1 insertion.2)

end VariableTable

namespace IndexedTable

variable {table : IndexedTable}

def empty : IndexedTable :=
  ⟨.empty, ∅⟩

def index? (table : IndexedTable) (name : String) : Option Nat :=
  table.positions[name]?

def insert (table : IndexedTable) (name : String) (kind : ValueKind) : Nat × IndexedTable :=
  match table.index? name with
  | some index => (index, table)
  | none =>
    (table.size,
      ⟨⟨table.toList ++ [⟨name, kind, []⟩]⟩, table.positions.insert name table.size⟩)

def addReader (table : IndexedTable) (index : Nat) (site : Site) : IndexedTable :=
  { table with toVariableTable := table.toVariableTable.addReader index site }

def edit (table : IndexedTable) : TableEdit → IndexedTable
  | .insert name kind => (table.insert name kind).2
  | .addReader index site => table.addReader index site

def editAll (table : IndexedTable) (edits : List TableEdit) : IndexedTable :=
  edits.foldl edit table

theorem index?_insert (table : IndexedTable) (name : String) (kind : ValueKind) :
    (table.insert name kind).2.index? name = some (table.insert name kind).1 := by
  rw [insert]
  split
  · next hindex => exact hindex
  · exact Std.HashMap.getElem?_insert_self

/-- The noted positions are those that a search finds. -/
def Agrees (table : IndexedTable) : Prop :=
  ∀ name, table.index? name = table.toVariableTable.index? name

theorem agrees_empty : empty.Agrees :=
  fun _ => Std.HashMap.getElem?_empty

theorem Agrees.insert_eq (h : table.Agrees) (name : String) (kind : ValueKind) :
    (table.insert name kind).1 = (table.toVariableTable.insert name kind).1 ∧
      (table.insert name kind).2.toVariableTable = (table.toVariableTable.insert name kind).2 := by
  rw [insert, VariableTable.insert, h name]
  cases table.toVariableTable.index? name <;> exact ⟨rfl, rfl⟩

theorem Agrees.insert (h : table.Agrees) (name : String) (kind : ValueKind) :
    (table.insert name kind).2.Agrees := by
  rw [IndexedTable.insert]
  cases hindex : table.index? name with
  | some index => exact h
  | none =>
    intro other
    have hsearch : (⟨table.toList ++ [⟨name, kind, []⟩]⟩ : VariableTable).index? other =
        (table.toVariableTable.index? other).or
          (if name = other then some table.size else none) := by
      rw [VariableTable.index?, VariableTable.index?, List.findIdx?_append]
      congr 1
      by_cases heq : name = other
      · simp [heq, VariableTable.size]
      · simp [heq]
    change (table.positions.insert name table.size)[other]? = _
    rw [hsearch, Std.HashMap.getElem?_insert, ← h other]
    by_cases heq : name = other
    · rw [if_pos (beq_iff_eq.2 heq), if_pos heq, ← heq, hindex, Option.none_or]
    · rw [if_neg (mt beq_iff_eq.1 heq), if_neg heq, Option.or_none]
      rfl

theorem Agrees.addReader (h : table.Agrees) (index : Nat) (site : Site) :
    (table.addReader index site).Agrees := by
  intro name
  have hsame := table.toVariableTable.declarations_addReader index site
  rw [VariableTable.index?_eq, IndexedTable.addReader, hsame, ← VariableTable.index?_eq]
  exact h name

theorem Agrees.edit (h : table.Agrees) (edit : TableEdit) :
    (table.edit edit).Agrees ∧
      (table.edit edit).toVariableTable = table.toVariableTable.edit edit := by
  cases edit with
  | insert name kind => exact ⟨h.insert name kind, (h.insert_eq name kind).2⟩
  | addReader index site => exact ⟨h.addReader index site, rfl⟩

theorem Agrees.editAll (h : table.Agrees) (edits : List TableEdit) :
    (table.editAll edits).Agrees ∧
      (table.editAll edits).toVariableTable = table.toVariableTable.editAll edits := by
  induction edits generalizing table with
  | nil => exact ⟨h, rfl⟩
  | cons edit rest ih =>
    obtain ⟨hagrees, hsame⟩ := h.edit edit
    obtain ⟨hrest, heq⟩ := ih hagrees
    refine ⟨hrest, heq.trans ?_⟩
    rw [hsame]
    rfl

/-- Behind some edits the names and their positions fit together, and nothing is lost later. -/
structure Coheres (table : IndexedTable) (edits : List TableEdit) : Prop where
  index_iff : ∀ name i, table.index? name = some i ↔ ∃ v, table.get? i = some v ∧ v.name = name
  answers : ∀ name kind,
    (table.insert name kind).2.index? name = some (table.insert name kind).1
  distinct : ∀ i j v w, table.get? i = some v → table.get? j = some w → v.name = w.name → i = j
  order : table.toList.map Variable.name = ((insertions edits).map Prod.fst).eraseDups
  kinds : ∀ i v, table.get? i = some v → (insertions edits).lookup v.name = some v.kind
  kept : ∀ i v, table.get? i = some v → ∀ later : List (String × ValueKind),
    let next := table.editAll (later.map fun insertion => .insert insertion.1 insertion.2)
    next.get? i = some v ∧ next.index? v.name = some i

theorem Agrees.index?_eq_some_iff (h : table.Agrees) {inserted : List (String × ValueKind)}
    (hrecalls : table.toVariableTable.Recalls inserted) {name : String} {i : Nat} :
    table.index? name = some i ↔ ∃ v, table.get? i = some v ∧ v.name = name := by
  rw [h name]
  exact VariableTable.index?_eq_some_iff hrecalls.distinct

theorem Agrees.coheres (h : table.Agrees) {edits : List TableEdit}
    (hrecalls : table.toVariableTable.Recalls (insertions edits)) : table.Coheres edits where
  index_iff _ _ := h.index?_eq_some_iff hrecalls
  answers := table.index?_insert
  distinct i j v w hv hw hname := by
    have hi := (h.index?_eq_some_iff hrecalls).2 ⟨v, hv, rfl⟩
    have hj := (h.index?_eq_some_iff hrecalls).2 ⟨w, hw, hname.symm⟩
    rw [hi] at hj
    exact Option.some.inj hj
  order := by
    rw [← VariableTable.names_eq, hrecalls.order]
  kinds i v hv := hrecalls.kinds (v.name, v.kind) (List.mem_map_of_mem (List.mem_of_getElem? hv))
  kept i v hv later := by
    let edits := later.map fun insertion => TableEdit.insert insertion.1 insertion.2
    obtain ⟨hagrees, hsame⟩ := h.editAll edits
    have hnext := hrecalls.editAll edits
    have hget := VariableTable.get?_editAll_insert hv later
    rw [← hsame] at hnext hget
    exact ⟨hget, (hagrees.index?_eq_some_iff hnext).2 ⟨v, hget, rfl⟩⟩

/-- Whatever is inserted and read, starting with an empty table: a name is noted at exactly the
position where its variable stands, which is what its insertion answers, no two variables have one
name, they stand in the order in which their names first came and have the kinds that these first
came with, and later insertions change nothing about them. The table and the positions are those of
the table that is searched. -/
theorem editAll_coheres (edits : List TableEdit) :
    (empty.editAll edits).Coheres edits ∧
      (empty.editAll edits).toVariableTable = VariableTable.empty.editAll edits ∧
      ∀ name, (empty.editAll edits).index? name =
          (VariableTable.empty.editAll edits).index? name ∧
        ∀ kind, ((empty.editAll edits).insert name kind).1 =
          ((VariableTable.empty.editAll edits).insert name kind).1 := by
  obtain ⟨hagrees, hsame⟩ : (empty.editAll edits).Agrees ∧
      (empty.editAll edits).toVariableTable = VariableTable.empty.editAll edits :=
    agrees_empty.editAll edits
  have hrecalls := VariableTable.recalls_empty.editAll edits
  rw [List.nil_append, ← hsame] at hrecalls
  refine ⟨hagrees.coheres hrecalls, hsame, fun name => ⟨?_, fun kind => ?_⟩⟩
  · rw [hagrees name, hsame]
  · rw [(hagrees.insert_eq name kind).1, hsame]

end IndexedTable

theorem Naming.table_foldl_introduce (naming : Naming) (introductions : List Introduction) :
    (introductions.foldl Naming.introduce naming).table =
      naming.table.editAll (introductions.map fun i => .insert i.name i.kind) := by
  induction introductions generalizing naming with
  | nil => rfl
  | cons introduction rest ih => exact ih (naming.introduce introduction)

/-- The table of a listing comes about by insertions and readings. -/
theorem Graph.exists_edits {graph : Graph} {start : UInt32} {listing : Listing}
    (hbuild : (graph.build start).outcome = .ok listing) :
    ∃ edits, listing.table = VariableTable.empty.editAll edits := by
  have hnaming : graph.outline.naming.table = VariableTable.registers.editAll
      ((graph.introductions graph.placement.stored).map fun i => .insert i.name i.kind) :=
    Naming.table_foldl_introduce _ _
  rw [table_of_build hbuild, VariableTable.addReaders_eq, hnaming, VariableTable.registers_eq,
    ← VariableTable.editAll_append, ← VariableTable.editAll_append]
  exact ⟨_, rfl⟩

end StackLift
