namespace StackLift

theorem length_add_le_of_ascending {l : List UInt32} (h : l.Pairwise (· < ·)) {k : Nat}
    (hk : ∀ a ∈ l, k ≤ a.toNat) (hk32 : k ≤ UInt32.size) : l.length + k ≤ UInt32.size := by
  induction l generalizing k with
  | nil => simpa using hk32
  | cons a rest ih =>
    obtain ⟨ha, hrest⟩ := List.pairwise_cons.1 h
    have hka := hk a List.mem_cons_self
    have hlt : a.toNat < UInt32.size := a.toNat_lt
    have := ih hrest (fun b hb => UInt32.lt_iff_toNat_lt.1 (ha b hb)) hlt
    simp only [List.length_cons]
    omega

theorem length_le_of_ascending {l : List UInt32} (h : l.Pairwise (· < ·)) :
    l.length ≤ UInt32.size :=
  length_add_le_of_ascending h (fun _ _ => Nat.zero_le _) (Nat.zero_le _)

theorem eq_of_ascending {α : Type} (key : α → UInt32) {l m : List α}
    (hl : l.Pairwise (key · < key ·)) (hm : m.Pairwise (key · < key ·))
    (h : ∀ a, a ∈ l ↔ a ∈ m) : l = m := by
  induction l generalizing m with
  | nil =>
    cases m with
    | nil => rfl
    | cons b m => exact absurd ((h b).2 List.mem_cons_self) List.not_mem_nil
  | cons a l ih =>
    cases m with
    | nil => exact absurd ((h a).1 List.mem_cons_self) List.not_mem_nil
    | cons b m =>
      obtain ⟨ha, hl'⟩ := List.pairwise_cons.1 hl
      obtain ⟨hb, hm'⟩ := List.pairwise_cons.1 hm
      have hab : a = b := by
        rcases List.mem_cons.1 ((h a).1 List.mem_cons_self) with rfl | ham
        · rfl
        · rcases List.mem_cons.1 ((h b).2 List.mem_cons_self) with rfl | hbl
          · rfl
          · exact absurd (hb a ham) (UInt32.lt_asymm (ha b hbl))
      subst hab
      refine congrArg _ (ih hl' hm' fun c => ?_)
      have hc := h c
      simp only [List.mem_cons] at hc
      refine ⟨fun hcl => ?_, fun hcm => ?_⟩
      · rcases hc.1 (.inr hcl) with rfl | hcm
        · exact absurd (ha _ hcl) (UInt32.lt_irrefl _)
        · exact hcm
      · rcases hc.2 (.inr hcm) with rfl | hcl
        · exact absurd (hb _ hcm) (UInt32.lt_irrefl _)
        · exact hcl

end StackLift
