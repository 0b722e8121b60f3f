import StackLift.Fault

/-!
Lists whose length is computed before they are filled. The length is a machine word, and no list
takes up more than half of the address space.
-/

namespace StackLift

/-- What becomes of a sum of machine words that does not fit one. -/
inductive Overflow where
  | panics | wraps
deriving DecidableEq

/-- One more than a word. A sum that panics is left as it is, since no list is that long:
`reserve` panics in its place. -/
def Overflow.succ : Overflow → UInt64 → Nat
  | panics, word => word.toNat + 1
  | wraps, word => (word + 1).toNat

/-- The most bytes that a list takes up. -/
def maxListBytes : Nat :=
  0x7fffffffffffffff

/-- Whether a list can have so many items, of so many bytes each. -/
abbrev Reservable (count itemBytes : Nat) : Prop :=
  count * itemBytes ≤ maxListBytes

/-- Makes room for a list of items. -/
def reserve (count itemBytes : Nat) : Except Fault Unit :=
  if Reservable count itemBytes then .ok () else .error .capacityOverflow

theorem reserve_bind {α : Type} {count itemBytes : Nat} (h : Reservable count itemBytes)
    (f : Unit → Except Fault α) : reserve count itemBytes >>= f = f () := by
  rw [reserve, if_pos h]
  rfl

theorem reserve_bind_of_not {α : Type} {count itemBytes : Nat} (h : ¬Reservable count itemBytes)
    (f : Unit → Except Fault α) : reserve count itemBytes >>= f = .error .capacityOverflow := by
  rw [reserve, if_neg h]
  rfl

theorem Reservable.mono {count fewer itemBytes : Nat} (h : Reservable count itemBytes)
    (hle : fewer ≤ count) : Reservable fewer itemBytes :=
  Nat.le_trans (Nat.mul_le_mul_right _ hle) h

@[simp] theorem Overflow.succ_panics (word : UInt64) : panics.succ word = word.toNat + 1 :=
  rfl

/-- A sum that fits a word does not overflow. -/
theorem Overflow.succ_of_lt {word : UInt64} (h : word.toNat + 1 < UInt64.size)
    (overflow : Overflow) : overflow.succ word = word.toNat + 1 := by
  cases overflow with
  | panics => rfl
  | wraps =>
    rw [succ, UInt64.toNat_add]
    exact Nat.mod_eq_of_lt h

end StackLift
