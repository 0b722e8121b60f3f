import StackLift.Offset.Map

/-!
Classes of offsets that grow by joining two at a time. Links never lead to a larger offset, so every
chain ends, and the root of a class is its least member. Finding a root shortens the chain to it.
-/

namespace StackLift

/-- An offset without a link is a root. -/
structure Forest where
  links : OffsetMap UInt32
  descending : ∀ offset parent, links.get? offset = some parent → parent ≤ offset

namespace Forest

def empty : Forest :=
  ⟨.empty, fun _ _ h => nomatch h⟩

/-- Where the link of an offset leads; a root leads to itself. -/
def parent (forest : Forest) (offset : UInt32) : UInt32 :=
  (forest.links.get? offset).getD offset

theorem parent_le (forest : Forest) (offset : UInt32) : forest.parent offset ≤ offset := by
  rw [parent]
  cases h : forest.links.get? offset with
  | none => exact UInt32.le_refl _
  | some parent => exact forest.descending offset parent h

theorem parent_lt {forest : Forest} {offset : UInt32} (h : forest.parent offset ≠ offset) :
    (forest.parent offset).toNat < offset.toNat :=
  UInt32.lt_iff_toNat_lt.1 (UInt32.lt_of_le_of_ne (forest.parent_le offset) h)

/-- Links an offset to one that is not larger. -/
def link (forest : Forest) (offset target : UInt32) (h : target ≤ offset) : Forest where
  links := forest.links.insert offset target
  descending other parent hget := by
    rw [OffsetMap.get?_insert] at hget
    split at hget
    · next heq => cases hget; exact heq ▸ h
    · exact forest.descending other parent hget

theorem parent_link (forest : Forest) {offset target : UInt32} (h : target ≤ offset)
    (other : UInt32) :
    (forest.link offset target h).parent other = if other = offset then target
      else forest.parent other := by
  rw [parent, link]
  rw [OffsetMap.get?_insert]
  split <;> rfl

/-- The end of the chain of links from an offset. -/
def root (forest : Forest) (offset : UInt32) : UInt32 :=
  if forest.parent offset = offset then offset else forest.root (forest.parent offset)
termination_by offset.toNat
decreasing_by exact parent_lt ‹_›

/-- The root of an offset, and the forest in which every other link on the way skips one. -/
def find (forest : Forest) (offset : UInt32) : UInt32 × Forest :=
  let parent := forest.parent offset
  if parent = offset then (offset, forest)
  else
    let grandparent := forest.parent parent
    (forest.link offset grandparent
      (UInt32.le_trans (forest.parent_le parent) (forest.parent_le offset))).find parent
termination_by offset.toNat
decreasing_by exact parent_lt ‹_›

/-- Joins the classes of two offsets under the smaller of their roots. -/
def union (forest : Forest) (a b : UInt32) : Forest :=
  let (rootA, forest) := forest.find a
  let (rootB, forest) := forest.find b
  if h : rootA ≤ rootB then
    if rootA = rootB then forest else forest.link rootB rootA h
  else forest.link rootA rootB (UInt32.le_of_lt (UInt32.not_le.1 h))

/-- Joins the classes of all offsets of a list. -/
def unionAll (forest : Forest) : List UInt32 → Forest
  | [] => forest
  | first :: rest => rest.foldl (fun forest offset => forest.union first offset) forest

end Forest

end StackLift
