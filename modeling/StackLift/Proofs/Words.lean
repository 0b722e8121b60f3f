import Mathlib.Data.List.Basic
import StackLift.Fault
import StackLift.Proofs.Names

namespace StackLift

/-- Letters, digits and underscores make up words. -/
def inWord (c : Char) : Bool :=
  c.isAlphanum || c = '_'

def isWord (s : String) : Bool :=
  !s.toList.isEmpty && s.toList.all inWord

/-- A word that stands in front of the text ends there. -/
def EndsWord (l : List Char) : Prop :=
  ∀ c ∈ l.head?, inWord c = false

theorem isWord_iff {s : String} :
    isWord s = true ↔ s.toList ≠ [] ∧ ∀ c ∈ s.toList, inWord c = true := by
  simp [isWord]

theorem endsWord_cons {c : Char} {l : List Char} (h : inWord c = false) : EndsWord (c :: l) := by
  intro d hd
  cases hd
  exact h

theorem eq_of_append_eq {l l' rest rest' : List Char} (hl : ∀ c ∈ l, inWord c = true)
    (hl' : ∀ c ∈ l', inWord c = true) (hrest : EndsWord rest) (hrest' : EndsWord rest')
    (h : l ++ rest = l' ++ rest') : l = l' ∧ rest = rest' := by
  induction l generalizing l' with
  | nil =>
    cases l' with
    | nil => exact ⟨rfl, h⟩
    | cons c l' =>
      have hin := hl' c List.mem_cons_self
      rw [hrest c (by rw [show rest = c :: (l' ++ rest') from h]; rfl)] at hin
      cases hin
  | cons c l ih =>
    cases l' with
    | nil =>
      have hin := hl c List.mem_cons_self
      rw [hrest' c (by rw [show rest' = c :: (l ++ rest) from h.symm]; rfl)] at hin
      cases hin
    | cons d l' =>
      rw [List.cons_append, List.cons_append, List.cons.injEq] at h
      obtain ⟨rfl, h⟩ := h
      obtain ⟨rfl, hsame⟩ := ih (fun e he => hl e (List.mem_cons_of_mem _ he))
        (fun e he => hl' e (List.mem_cons_of_mem _ he)) h
      exact ⟨rfl, hsame⟩

/-- Two texts that begin with words, and go on with what ends them, are the same only if the words
are, and what follows. -/
theorem eq_of_word_append_eq {s t : String} {rest rest' : List Char} (hs : isWord s = true)
    (ht : isWord t = true) (hrest : EndsWord rest) (hrest' : EndsWord rest')
    (h : s.toList ++ rest = t.toList ++ rest') : s = t ∧ rest = rest' := by
  obtain ⟨hlist, hsame⟩ := eq_of_append_eq (isWord_iff.1 hs).2 (isWord_iff.1 ht).2 hrest hrest' h
  exact ⟨String.toList_injective hlist, hsame⟩

theorem isWord_append {s t : String} (hs : isWord s = true) (ht : isWord t = true) :
    isWord (s ++ t) = true := by
  rw [isWord_iff] at hs ht ⊢
  rw [String.toList_append]
  refine ⟨List.append_ne_nil_of_left_ne_nil hs.1 _, ?_⟩
  intro c hc
  rcases List.mem_append.1 hc with hc | hc
  · exact hs.2 c hc
  · exact ht.2 c hc

theorem inWord_digitChar : ∀ n < 16, inWord n.digitChar = true := by
  decide

theorem inWord_of_mem_toDigits {base : Nat} (hpos : 1 < base) (hle : base ≤ 16) (n : Nat) :
    ∀ c ∈ Nat.toDigits base n, inWord c = true := by
  induction n using Nat.strongRecOn with
  | ind n ih =>
    intro c hc
    by_cases hn : n < base
    · rw [Nat.toDigits_of_lt_base hn, List.mem_singleton] at hc
      exact hc ▸ inWord_digitChar n (Nat.lt_of_lt_of_le hn hle)
    · rw [Nat.toDigits_of_base_le hpos (Nat.le_of_not_lt hn), List.mem_append,
        List.mem_singleton] at hc
      rcases hc with hc | rfl
      · exact ih (n / base) (Nat.div_lt_self (by omega) hpos) c hc
      · exact inWord_digitChar (n % base) (Nat.lt_of_lt_of_le (Nat.mod_lt n (by omega)) hle)

theorem isWord_hexPadded (width n : Nat) : isWord (hexPadded width n) = true := by
  rw [isWord_iff, hexPadded, String.toList_ofList, List.leftpad]
  refine ⟨List.append_ne_nil_of_right_ne_nil _ Nat.toDigits_ne_nil, ?_⟩
  intro c hc
  rcases List.mem_append.1 hc with hc | hc
  · rw [List.eq_of_mem_replicate hc]
    decide
  · exact inWord_of_mem_toDigits (by omega) (Nat.le_refl _) n c hc

theorem isWord_hexPrefixed (width n : Nat) : isWord (hexPrefixed width n) = true :=
  isWord_append (by decide) (isWord_hexPadded _ _)

theorem isWord_repr (n : Nat) : isWord (Nat.repr n) = true := by
  rw [isWord_iff, Nat.toList_repr]
  exact ⟨Nat.toDigits_ne_nil, inWord_of_mem_toDigits (by omega) (by omega) n⟩

theorem isWord_name (r : Register) : isWord r.name = true := by
  cases r <;> decide

theorem Slot.isWord_variableName (slot : Slot) : isWord slot.variableName = true :=
  isWord_append (isWord_append (isWord_append (by decide) (isWord_hexPadded _ _)) (by decide))
    (isWord_repr _)

end StackLift
