namespace StackLift

variable {α : Type}

/-- The sum of a measure over the members of a list. -/
def totalOf (f : α → Nat) : List α → Nat
  | [] => 0
  | a :: rest => f a + totalOf f rest

theorem totalOf_le {f g : α → Nat} (h : ∀ a, f a ≤ g a) (l : List α) :
    totalOf f l ≤ totalOf g l := by
  induction l with
  | nil => exact Nat.le_refl _
  | cons a rest ih => exact Nat.add_le_add (h a) ih

theorem totalOf_lt {f g : α → Nat} (h : ∀ a, f a ≤ g a) {a : α} {l : List α} (ha : a ∈ l)
    (hlt : f a < g a) : totalOf f l < totalOf g l := by
  induction l with
  | nil => cases ha
  | cons b rest ih =>
    rcases List.mem_cons.1 ha with rfl | ha
    · exact Nat.add_lt_add_of_lt_of_le hlt (totalOf_le h rest)
    · exact Nat.add_lt_add_of_le_of_lt (h b) (ih ha)

end StackLift
