import StackLift.Offset.Ascending

namespace StackLift

/-- Puts an offset at its place in an ascending list, unless it is there already. -/
def insertAscending (a : UInt32) : List UInt32 → List UInt32
  | [] => [a]
  | b :: rest =>
    if a < b then a :: b :: rest
    else if a = b then b :: rest
    else b :: insertAscending a rest

theorem mem_insertAscending {a c : UInt32} {l : List UInt32} :
    c ∈ insertAscending a l ↔ c = a ∨ c ∈ l := by
  induction l with
  | nil => simp [insertAscending]
  | cons b rest ih =>
    rw [insertAscending]
    split
    · simp
    · split
      · next h => simp [h]
      · simp [ih, or_left_comm]

theorem pairwise_insertAscending {a : UInt32} {l : List UInt32} (h : l.Pairwise (· < ·)) :
    (insertAscending a l).Pairwise (· < ·) := by
  induction l with
  | nil => simp [insertAscending]
  | cons b rest ih =>
    obtain ⟨hb, hrest⟩ := List.pairwise_cons.1 h
    rw [insertAscending]
    split
    · next hab =>
      refine List.pairwise_cons.2 ⟨fun c hc => ?_, h⟩
      rcases List.mem_cons.1 hc with rfl | hc
      · exact hab
      · exact UInt32.lt_trans hab (hb c hc)
    · next hab =>
      split
      · exact h
      · next hne =>
        refine List.pairwise_cons.2 ⟨fun c hc => ?_, ih hrest⟩
        rcases mem_insertAscending.1 hc with rfl | hc
        · exact UInt32.lt_of_le_of_ne (UInt32.not_lt.1 hab) (Ne.symm hne)
        · exact hb c hc

theorem length_insertAscending {a : UInt32} {l : List UInt32} (h : l.Pairwise (· < ·)) :
    (insertAscending a l).length = if a ∈ l then l.length else l.length + 1 := by
  induction l with
  | nil => simp [insertAscending]
  | cons b rest ih =>
    obtain ⟨hb, hrest⟩ := List.pairwise_cons.1 h
    rw [insertAscending]
    split
    · next hab =>
      have : a ∉ b :: rest := by
        intro hmem
        rcases List.mem_cons.1 hmem with rfl | hmem
        · exact UInt32.lt_irrefl _ hab
        · exact UInt32.lt_irrefl _ (UInt32.lt_trans hab (hb a hmem))
      simp [this]
    · split
      · next h => simp [h]
      · next hne =>
        rw [List.length_cons, ih hrest]
        by_cases hmem : a ∈ rest <;> simp [hmem, hne]

structure OffsetSet where
  toList : List UInt32
  ascending : toList.Pairwise (· < ·)
deriving DecidableEq

namespace OffsetSet

instance : Membership UInt32 OffsetSet :=
  ⟨fun s a => a ∈ s.toList⟩

instance (a : UInt32) (s : OffsetSet) : Decidable (a ∈ s) :=
  inferInstanceAs (Decidable (a ∈ s.toList))

def empty : OffsetSet :=
  ⟨[], .nil⟩

def singleton (a : UInt32) : OffsetSet :=
  ⟨[a], by simp⟩

def insert (s : OffsetSet) (a : UInt32) : OffsetSet :=
  ⟨insertAscending a s.toList, pairwise_insertAscending s.ascending⟩

def ofList (l : List UInt32) : OffsetSet :=
  l.foldl insert empty

def union (s t : OffsetSet) : OffsetSet :=
  t.toList.foldl insert s

def size (s : OffsetSet) : Nat :=
  s.toList.length

theorem mem_toList {s : OffsetSet} {a : UInt32} : a ∈ s.toList ↔ a ∈ s :=
  Iff.rfl

@[simp] theorem not_mem_empty (a : UInt32) : a ∉ empty :=
  List.not_mem_nil

@[simp] theorem mem_singleton {a b : UInt32} : a ∈ singleton b ↔ a = b :=
  List.mem_singleton

@[simp] theorem mem_insert {s : OffsetSet} {a b : UInt32} : a ∈ s.insert b ↔ a = b ∨ a ∈ s :=
  mem_insertAscending

theorem mem_foldl_insert {s : OffsetSet} {l : List UInt32} {a : UInt32} :
    a ∈ l.foldl insert s ↔ a ∈ s ∨ a ∈ l := by
  induction l generalizing s with
  | nil => simp
  | cons b rest ih => simp [ih, or_assoc, or_left_comm]

@[simp] theorem mem_ofList {l : List UInt32} {a : UInt32} : a ∈ ofList l ↔ a ∈ l := by
  simp [ofList, mem_foldl_insert]

@[simp] theorem mem_union {s t : OffsetSet} {a : UInt32} : a ∈ s.union t ↔ a ∈ s ∨ a ∈ t :=
  mem_foldl_insert

theorem size_insert (s : OffsetSet) (a : UInt32) :
    (s.insert a).size = if a ∈ s then s.size else s.size + 1 :=
  length_insertAscending s.ascending

theorem size_le (s : OffsetSet) : s.size ≤ UInt32.size :=
  length_le_of_ascending s.ascending

theorem size_lt_of_not_mem {s : OffsetSet} {a : UInt32} (h : a ∉ s) : s.size < UInt32.size := by
  have := (s.insert a).size_le
  rw [size_insert, if_neg h] at this
  omega

/-- The room that is left in a set shrinks with every new member. -/
theorem room_insert_lt {s : OffsetSet} {a : UInt32} (h : a ∉ s) :
    UInt32.size - (s.insert a).size < UInt32.size - s.size := by
  have := size_lt_of_not_mem h
  rw [size_insert, if_neg h]
  omega

theorem size_le_foldl_insert (s : OffsetSet) (l : List UInt32) :
    s.size ≤ (l.foldl insert s).size := by
  induction l generalizing s with
  | nil => simp
  | cons a rest ih =>
    refine Nat.le_trans ?_ (ih _)
    rw [size_insert]
    split <;> omega

theorem room_foldl_insert_le (s : OffsetSet) (l : List UInt32) :
    UInt32.size - (l.foldl insert s).size ≤ UInt32.size - s.size :=
  Nat.sub_le_sub_left (size_le_foldl_insert s l) _

theorem size_lt_foldl_insert {s : OffsetSet} {l : List UInt32} (h : ∃ a ∈ l, a ∉ s) :
    s.size < (l.foldl insert s).size := by
  induction l generalizing s with
  | nil => simp at h
  | cons a rest ih =>
    rw [List.foldl_cons]
    by_cases ha : a ∈ s
    · obtain ⟨b, hb, hbs⟩ := h
      have hmem : b ∈ rest := by
        rcases List.mem_cons.1 hb with rfl | hb
        · exact absurd ha hbs
        · exact hb
      have hsize : (s.insert a).size = s.size := by rw [size_insert, if_pos ha]
      rw [← hsize]
      refine ih ⟨b, hmem, fun hins => ?_⟩
      rcases mem_insert.1 hins with rfl | hins
      · exact hbs ha
      · exact hbs hins
    · refine Nat.lt_of_lt_of_le ?_ (size_le_foldl_insert _ _)
      rw [size_insert, if_neg ha]
      omega

theorem ext_mem {s t : OffsetSet} (h : ∀ a, a ∈ s ↔ a ∈ t) : s = t := by
  obtain ⟨l, hl⟩ := s
  obtain ⟨m, hm⟩ := t
  congr 1
  exact eq_of_ascending id hl hm h

end OffsetSet

end StackLift
