import Mathlib.Data.List.Forall2

namespace StackLift

variable {α β γ : Type} {R : α → β → Prop} {S : β → γ → Prop} {T : α → γ → Prop}

theorem forall₂_comp {l : List α} {m : List β} {n : List γ} (h : List.Forall₂ R l m)
    (h' : List.Forall₂ S m n) (hRS : ∀ a b c, R a b → S b c → T a c) : List.Forall₂ T l n := by
  induction h generalizing n with
  | nil =>
    cases h'
    exact .nil
  | cons hab _ ih =>
    cases h' with
    | cons hbc hrest => exact .cons (hRS _ _ _ hab hbc) (ih hrest)

theorem exists_forall₂_of_comp {l : List α} {n : List γ}
    (h : List.Forall₂ (fun a c => ∃ b, R a b ∧ S b c) l n) :
    ∃ m, List.Forall₂ R l m ∧ List.Forall₂ S m n := by
  induction h with
  | nil => exact ⟨[], .nil, .nil⟩
  | cons hac _ ih =>
    obtain ⟨b, hab, hbc⟩ := hac
    obtain ⟨bs, hRs, hSs⟩ := ih
    exact ⟨b :: bs, .cons hab hRs, .cons hbc hSs⟩

theorem exists_mem_of_forall₂ {l : List α} {m : List β} (h : List.Forall₂ R l m) :
    ∀ a ∈ l, ∃ b ∈ m, R a b := by
  induction h with
  | nil => exact fun _ ha => (nomatch ha)
  | @cons a b l m hab _ ih =>
    intro c hc
    rcases List.mem_cons.1 hc with rfl | hc
    · exact ⟨b, List.mem_cons_self, hab⟩
    · obtain ⟨b', hb', hcb'⟩ := ih c hc
      exact ⟨b', List.mem_cons_of_mem _ hb', hcb'⟩

theorem exists_getElem?_of_forall₂ {l : List α} {m : List β} (h : List.Forall₂ R l m) {k : Nat}
    {b : β} (hk : m[k]? = some b) : ∃ a, l[k]? = some a ∧ R a b := by
  induction h generalizing k with
  | nil => cases hk
  | @cons a _ _ _ hab _ ih =>
    cases k with
    | zero =>
      cases hk
      exact ⟨a, rfl, hab⟩
    | succ k => exact ih hk

theorem forall₂_concat_right {l : List α} {m : List β} {b : β} (h : List.Forall₂ R l (m ++ [b])) :
    ∃ init last, l = init ++ [last] ∧ List.Forall₂ R init m ∧ R last b := by
  induction m generalizing l with
  | nil =>
    obtain _ | ⟨hlast, _ | _⟩ := h
    exact ⟨[], _, rfl, .nil, hlast⟩
  | cons c m ih =>
    obtain _ | ⟨hfirst, hrest⟩ := h
    obtain ⟨init, last, rfl, hinit, hlast⟩ := ih hrest
    exact ⟨_ :: init, last, rfl, .cons hfirst hinit, hlast⟩

theorem getLast_of_forall₂ {l : List α} {m : List β} {a : α} {b : β} (h : List.Forall₂ R l m)
    (ha : l.getLast? = some a) (hb : m.getLast? = some b) : R a b := by
  obtain ⟨init, rfl⟩ := List.getLast?_eq_some_iff.1 hb
  obtain ⟨init', last, rfl, _, hlast⟩ := forall₂_concat_right h
  rw [List.getLast?_concat, Option.some.injEq] at ha
  exact ha ▸ hlast

theorem pairwise_of_forall₂ {l : List α} {m : List β} {O : α → α → Prop} {P : β → β → Prop}
    (h : List.Forall₂ R l m) (hm : m.Pairwise P)
    (hR : ∀ a a' b b', R a b → R a' b' → P b b' → O a a') : l.Pairwise O := by
  induction h with
  | nil => exact .nil
  | @cons a b l m hab hrest ih =>
    obtain ⟨hb, hm⟩ := List.pairwise_cons.1 hm
    refine List.pairwise_cons.2 ⟨fun a' ha' => ?_, ih hm⟩
    obtain ⟨b', hb', hab'⟩ := exists_mem_of_forall₂ hrest a' ha'
    exact hR a a' b b' hab hab' (hb b' hb')

end StackLift
