import StackLift.Offset.Set
import StackLift.Opcode

/-!
Values that are known by where they may come from: the offsets of the instructions that may have
produced them, and their kind. `Provenance.grows` says exactly when a merge adds something, and each
such merge uses up some of the finite room of a value (`Provenance.room_merge_lt`).
-/

namespace StackLift

/-- A kind can widen once, to an object. -/
def ValueKind.room (kind : ValueKind) : Nat :=
  if kind = .object then 0 else 1

theorem ValueKind.room_join_le (a b : ValueKind) : (a.join b).room ≤ a.room := by
  cases a <;> cases b <;> decide

theorem ValueKind.room_join_lt {a b : ValueKind} (h : a.join b ≠ a) :
    (a.join b).room < a.room := by
  revert h
  cases a <;> cases b <;> decide

structure Provenance where
  sources : OffsetSet
  kind : ValueKind
deriving DecidableEq

namespace Provenance

/-- What a register holds on entry: nothing in the code produced it. -/
def entry (kind : ValueKind) : Provenance :=
  ⟨.empty, kind⟩

def producedBy (offset : UInt32) (kind : ValueKind) : Provenance :=
  ⟨.singleton offset, kind⟩

def isEntry (v : Provenance) : Bool :=
  v.sources.toList.isEmpty

/-- The union of what both may be. -/
def merge (v w : Provenance) : Provenance :=
  ⟨v.sources.union w.sources, v.kind.join w.kind⟩

/-- A source of `w` is new to `v`, or its kind widens that of `v`. -/
def grows (v w : Provenance) : Bool :=
  w.sources.toList.any (· ∉ v.sources) || v.kind.join w.kind ≠ v.kind

/-- How much a value can still grow. -/
def room (v : Provenance) : Nat :=
  (UInt32.size - v.sources.size) + v.kind.room

theorem room_merge_le (v w : Provenance) : (v.merge w).room ≤ v.room := by
  have hsize : v.sources.size ≤ (v.merge w).sources.size := OffsetSet.size_le_foldl_insert _ _
  have hkind : (v.merge w).kind.room ≤ v.kind.room := v.kind.room_join_le w.kind
  unfold room
  omega

theorem room_merge_lt {v w : Provenance} (h : v.grows w = true) : (v.merge w).room < v.room := by
  have hsize : v.sources.size ≤ (v.merge w).sources.size := OffsetSet.size_le_foldl_insert _ _
  have hle := (v.merge w).sources.size_le
  have hkind : (v.merge w).kind.room ≤ v.kind.room := v.kind.room_join_le w.kind
  simp only [grows, Bool.or_eq_true, List.any_eq_true, decide_eq_true_eq] at h
  rcases h with ⟨a, ha, hnew⟩ | hwider
  · have hlt : v.sources.size < (v.merge w).sources.size :=
      OffsetSet.size_lt_foldl_insert ⟨a, ha, hnew⟩
    unfold room
    omega
  · have hlt : (v.merge w).kind.room < v.kind.room := ValueKind.room_join_lt hwider
    unfold room
    omega

end Provenance

end StackLift
