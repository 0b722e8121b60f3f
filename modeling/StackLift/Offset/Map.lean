import StackLift.Offset.Ascending
import StackLift.Total

namespace StackLift

variable {α : Type}

/-- Looks an offset up in an association list. -/
def lookupOffset (a : UInt32) : List (UInt32 × α) → Option α
  | [] => none
  | entry :: rest => if entry.1 = a then some entry.2 else lookupOffset a rest

/-- Puts an entry at its place among ascending keys, over the entry that is there. -/
def insertEntry (a : UInt32) (value : α) : List (UInt32 × α) → List (UInt32 × α)
  | [] => [(a, value)]
  | entry :: rest =>
    if a < entry.1 then (a, value) :: entry :: rest
    else if a = entry.1 then (a, value) :: rest
    else entry :: insertEntry a value rest

theorem mem_of_lookupOffset {a : UInt32} {value : α} {l : List (UInt32 × α)}
    (h : lookupOffset a l = some value) : (a, value) ∈ l := by
  induction l with
  | nil => cases h
  | cons entry rest ih =>
    rw [lookupOffset] at h
    split at h
    · next hkey =>
      cases h
      subst hkey
      exact List.mem_cons_self
    · exact List.mem_cons_of_mem _ (ih h)

theorem lookupOffset_of_mem {a : UInt32} {value : α} {l : List (UInt32 × α)}
    (hl : l.Pairwise fun x y => x.1 < y.1) (h : (a, value) ∈ l) :
    lookupOffset a l = some value := by
  induction l with
  | nil => cases h
  | cons entry rest ih =>
    obtain ⟨hentry, hrest⟩ := List.pairwise_cons.1 hl
    rw [lookupOffset]
    rcases List.mem_cons.1 h with rfl | h
    · simp
    · have hne : entry.1 ≠ a := fun he =>
        UInt32.lt_irrefl a (he ▸ hentry (a, value) h)
      rw [if_neg hne]
      exact ih hrest h

theorem eq_or_mem_of_mem_insertEntry {a : UInt32} {value : α} {entry : UInt32 × α}
    {l : List (UInt32 × α)} (h : entry ∈ insertEntry a value l) :
    entry = (a, value) ∨ entry ∈ l := by
  induction l with
  | nil => exact .inl (List.mem_singleton.1 h)
  | cons e rest ih =>
    rw [insertEntry] at h
    split at h
    · exact List.mem_cons.1 h
    · split at h
      · rcases List.mem_cons.1 h with h | h
        · exact .inl h
        · exact .inr (List.mem_cons_of_mem _ h)
      · rcases List.mem_cons.1 h with rfl | h
        · exact .inr List.mem_cons_self
        · exact (ih h).imp_right (List.mem_cons_of_mem _)

theorem pairwise_insertEntry {a : UInt32} {value : α} {l : List (UInt32 × α)}
    (h : l.Pairwise fun x y => x.1 < y.1) :
    (insertEntry a value l).Pairwise fun x y => x.1 < y.1 := by
  induction l with
  | nil => simp [insertEntry]
  | cons entry rest ih =>
    obtain ⟨hentry, hrest⟩ := List.pairwise_cons.1 h
    rw [insertEntry]
    split
    · next hlt =>
      refine List.pairwise_cons.2 ⟨fun e he => ?_, h⟩
      rcases List.mem_cons.1 he with rfl | he
      · exact hlt
      · exact UInt32.lt_trans hlt (hentry e he)
    · next hnlt =>
      split
      · next heq => exact List.pairwise_cons.2 ⟨fun e he => heq ▸ hentry e he, hrest⟩
      · next hne =>
        refine List.pairwise_cons.2 ⟨fun e he => ?_, ih hrest⟩
        rcases eq_or_mem_of_mem_insertEntry he with rfl | he
        · exact UInt32.lt_of_le_of_ne (UInt32.not_lt.1 hnlt) (Ne.symm hne)
        · exact hentry e he

theorem lookupOffset_insertEntry {a b : UInt32} {value : α} {l : List (UInt32 × α)}
    (h : l.Pairwise fun x y => x.1 < y.1) :
    lookupOffset b (insertEntry a value l) = if b = a then some value else lookupOffset b l := by
  induction l with
  | nil => simp [insertEntry, lookupOffset, eq_comm]
  | cons entry rest ih =>
    obtain ⟨_, hrest⟩ := List.pairwise_cons.1 h
    rw [insertEntry]
    split
    · rw [lookupOffset]
      simp only [eq_comm]
    · split
      · next heq =>
        simp only [lookupOffset, ← heq, eq_comm]
        split <;> rfl
      · next hne =>
        rw [lookupOffset, ih hrest, lookupOffset]
        by_cases hb : b = a
        · subst hb
          simp [Ne.symm hne]
        · simp [hb]

/-- A total over the values changes by the entry that is replaced. -/
theorem totalOf_insertEntry {a : UInt32} {old : α} (new : α) {l : List (UInt32 × α)}
    (h : l.Pairwise fun x y => x.1 < y.1) (hold : lookupOffset a l = some old) (f : α → Nat) :
    totalOf f ((insertEntry a new l).map Prod.snd) + f old =
      totalOf f (l.map Prod.snd) + f new := by
  induction l with
  | nil => cases hold
  | cons entry rest ih =>
    obtain ⟨hentry, hrest⟩ := List.pairwise_cons.1 h
    rw [lookupOffset] at hold
    rw [insertEntry]
    by_cases hkey : entry.1 = a
    · rw [if_pos hkey] at hold
      cases hold
      subst hkey
      rw [if_neg (UInt32.lt_irrefl _), if_pos rfl]
      simp only [List.map_cons, totalOf]
      omega
    · rw [if_neg hkey] at hold
      have hlt : ¬a < entry.1 := fun hlt =>
        UInt32.lt_asymm hlt (hentry (a, old) (mem_of_lookupOffset hold))
      rw [if_neg hlt, if_neg (Ne.symm hkey)]
      have := ih hrest hold
      simp only [List.map_cons, totalOf]
      omega

theorem length_insertEntry_of_mem {a : UInt32} {old : α} (new : α) {l : List (UInt32 × α)}
    (hold : lookupOffset a l = some old) (h : l.Pairwise fun x y => x.1 < y.1) :
    (insertEntry a new l).length = l.length := by
  induction l with
  | nil => cases hold
  | cons entry rest ih =>
    obtain ⟨hentry, hrest⟩ := List.pairwise_cons.1 h
    rw [lookupOffset] at hold
    rw [insertEntry]
    by_cases hkey : entry.1 = a
    · subst hkey
      rw [if_neg (UInt32.lt_irrefl _), if_pos rfl, List.length_cons, List.length_cons]
    · rw [if_neg hkey] at hold
      have hlt : ¬a < entry.1 := fun hlt =>
        UInt32.lt_asymm hlt (hentry (a, old) (mem_of_lookupOffset hold))
      rw [if_neg hlt, if_neg (Ne.symm hkey), List.length_cons, ih hold hrest, List.length_cons]

theorem length_insertEntry_of_not_mem {a : UInt32} (new : α) {l : List (UInt32 × α)}
    (hnone : lookupOffset a l = none) : (insertEntry a new l).length = l.length + 1 := by
  induction l with
  | nil => rfl
  | cons entry rest ih =>
    rw [lookupOffset] at hnone
    rw [insertEntry]
    split at hnone
    · cases hnone
    · next hne =>
      split
      · rfl
      · rw [if_neg (Ne.symm hne), List.length_cons, ih hnone, List.length_cons]

structure OffsetMap (α : Type) where
  entries : List (UInt32 × α)
  ascending : entries.Pairwise fun x y => x.1 < y.1
deriving DecidableEq

namespace OffsetMap

def empty : OffsetMap α :=
  ⟨[], .nil⟩

def get? (m : OffsetMap α) (a : UInt32) : Option α :=
  lookupOffset a m.entries

def insert (m : OffsetMap α) (a : UInt32) (value : α) : OffsetMap α :=
  ⟨insertEntry a value m.entries, pairwise_insertEntry m.ascending⟩

/-- The keys, ascending. -/
def keys (m : OffsetMap α) : List UInt32 :=
  m.entries.map Prod.fst

/-- The values by ascending keys. -/
def values (m : OffsetMap α) : List α :=
  m.entries.map Prod.snd

def size (m : OffsetMap α) : Nat :=
  m.entries.length

@[simp] theorem get?_empty (a : UInt32) : (empty : OffsetMap α).get? a = none :=
  rfl

theorem get?_insert (m : OffsetMap α) (a b : UInt32) (value : α) :
    (m.insert a value).get? b = if b = a then some value else m.get? b :=
  lookupOffset_insertEntry m.ascending

@[simp] theorem get?_insert_self (m : OffsetMap α) (a : UInt32) (value : α) :
    (m.insert a value).get? a = some value := by
  simp [get?_insert]

theorem get?_eq_some_iff {m : OffsetMap α} {a : UInt32} {value : α} :
    m.get? a = some value ↔ (a, value) ∈ m.entries :=
  ⟨mem_of_lookupOffset, lookupOffset_of_mem m.ascending⟩

theorem size_insert_of_some {m : OffsetMap α} {a : UInt32} {old : α} (new : α)
    (h : m.get? a = some old) : (m.insert a new).size = m.size :=
  length_insertEntry_of_mem new h m.ascending

theorem size_insert_of_none {m : OffsetMap α} {a : UInt32} (new : α) (h : m.get? a = none) :
    (m.insert a new).size = m.size + 1 :=
  length_insertEntry_of_not_mem new h

theorem totalOf_values_insert {m : OffsetMap α} {a : UInt32} {old : α} (new : α)
    (h : m.get? a = some old) (f : α → Nat) :
    totalOf f (m.insert a new).values + f old = totalOf f m.values + f new :=
  totalOf_insertEntry new m.ascending h f

theorem ext_get? {m n : OffsetMap α} (h : ∀ a, m.get? a = n.get? a) : m = n := by
  have hmem : ∀ entry, entry ∈ m.entries ↔ entry ∈ n.entries := fun entry => by
    rw [← get?_eq_some_iff, ← get?_eq_some_iff, h]
  obtain ⟨l, hl⟩ := m
  obtain ⟨k, hk⟩ := n
  congr 1
  exact eq_of_ascending Prod.fst hl hk hmem

theorem ascending_keys (m : OffsetMap α) : m.keys.Pairwise (· < ·) :=
  List.pairwise_map.2 m.ascending

/-- No map has more keys than there are offsets. -/
theorem size_le (m : OffsetMap α) : m.size ≤ UInt32.size := by
  simpa [keys, size] using length_le_of_ascending m.ascending_keys

end OffsetMap

end StackLift
