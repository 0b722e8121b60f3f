import Mathlib.Data.List.Basic
import StackLift.Listing.Naming

namespace StackLift

def hexDigit (c : Char) : Nat :=
  if c.toNat < 58 then c.toNat - 48 else c.toNat - 87

def hexValue (l : List Char) : Nat :=
  l.foldl (fun value c => 16 * value + hexDigit c) 0

theorem hexValue_append_singleton (l : List Char) (c : Char) :
    hexValue (l ++ [c]) = 16 * hexValue l + hexDigit c := by
  rw [hexValue, List.foldl_append]
  rfl

theorem hexDigit_digitChar : ∀ n < 16, hexDigit n.digitChar = n ∧ n.digitChar ≠ '_' := by
  decide

theorem toDigits_hex (n : Nat) :
    hexValue (Nat.toDigits 16 n) = n ∧ '_' ∉ Nat.toDigits 16 n := by
  induction n using Nat.strongRecOn with
  | ind n ih =>
    by_cases hn : n < 16
    · obtain ⟨hvalue, hne⟩ := hexDigit_digitChar n hn
      rw [Nat.toDigits_of_lt_base hn]
      refine ⟨?_, ?_⟩
      · change 16 * 0 + hexDigit n.digitChar = n
        omega
      · rw [List.mem_singleton]
        exact hne.symm
    · have hle : 16 ≤ n := Nat.le_of_not_lt hn
      obtain ⟨hquotient, hnot⟩ := ih (n / 16) (by omega)
      obtain ⟨hvalue, hne⟩ := hexDigit_digitChar (n % 16) (Nat.mod_lt n (by omega))
      rw [Nat.toDigits_of_base_le (by omega) hle]
      constructor
      · rw [hexValue_append_singleton, hquotient, hvalue]
        omega
      · rw [List.mem_append, List.mem_singleton, not_or]
        exact ⟨hnot, hne.symm⟩

theorem hexValue_replicate_append (k : Nat) (l : List Char) :
    hexValue (List.replicate k '0' ++ l) = hexValue l := by
  induction k with
  | zero => rfl
  | succ k ih =>
    rw [List.replicate_succ, List.cons_append]
    exact ih

theorem hexPadded_injective (width : Nat) : Function.Injective (hexPadded width) := by
  intro m n h
  have hdigits := congrArg hexValue (String.ofList_injective h)
  rw [List.leftpad, List.leftpad, hexValue_replicate_append, hexValue_replicate_append,
    (toDigits_hex m).1, (toDigits_hex n).1] at hdigits
  exact hdigits

theorem hexPrefixed_injective (width : Nat) : Function.Injective (hexPrefixed width) := by
  intro m n h
  have hdigits := congrArg String.toList h
  rw [hexPrefixed, hexPrefixed, String.toList_append, String.toList_append,
    List.append_cancel_left_eq] at hdigits
  exact hexPadded_injective _ (String.toList_injective hdigits)

theorem underscore_not_mem_hexPadded (width n : Nat) : '_' ∉ (hexPadded width n).toList := by
  rw [hexPadded, String.toList_ofList, List.leftpad, List.mem_append, not_or]
  refine ⟨?_, (toDigits_hex n).2⟩
  intro h
  exact absurd (List.eq_of_mem_replicate h) (by decide)

namespace Slot

theorem toList_variableName (slot : Slot) :
    slot.variableName.toList =
      'v' :: '_' :: ((hexPadded 4 slot.reader.offset.toNat).toList ++
        '_' :: (Nat.repr slot.index).toList) := by
  simp [variableName]

theorem eq_of_variableName_eq {s t : Slot} (h : s.variableName = t.variableName) :
    s.reader.offset = t.reader.offset ∧ s.index = t.index := by
  have hlist := congrArg String.toList h
  rw [toList_variableName, toList_variableName, List.cons.injEq, List.cons.injEq,
    List.append_cons_inj_of_notMem (underscore_not_mem_hexPadded _ _)] at hlist
  · obtain ⟨_, _, hoffset, _, hindex⟩ := hlist
    constructor
    · exact UInt32.toNat_inj.1 (hexPadded_injective 4 (String.toList_injective hoffset))
    · rw [Nat.toList_repr, Nat.toList_repr] at hindex
      have hvalue := congrArg (fun digits => Nat.ofDigitChars 10 digits 0) hindex
      simpa only [Nat.ofDigitChars_ten_toDigits] using hvalue
  · rw [Nat.toList_repr]
    exact Nat.underscore_not_in_toDigits

theorem variableName_ne_name (slot : Slot) (r : Register) : slot.variableName ≠ r.name := by
  intro h
  have hhead := congrArg (fun name => name.toList.head?) h
  simp only [toList_variableName, List.head?_cons] at hhead
  cases r <;> exact absurd hhead (by decide)

end Slot

end StackLift
