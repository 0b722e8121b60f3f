import StackLift.Frame
import StackLift.Proofs.Pointwise

namespace StackLift

namespace ValueKind

theorem join_eq_left_trans {a b c : ValueKind} (hab : a.join b = a) (hbc : b.join c = b) :
    a.join c = a := by
  rw [← hab, join_assoc, hbc]

theorem join_join_left (a b : ValueKind) : (a.join b).join a = a.join b := by
  rw [join_comm, ← join_assoc, join_self]

theorem join_join_right (a b : ValueKind) : (a.join b).join b = a.join b := by
  rw [join_assoc, join_self]

end ValueKind

namespace Provenance

/-- Nothing that `w` may be is new to `v`. -/
structure Covers (v w : Provenance) : Prop where
  sources : ∀ a ∈ w.sources, a ∈ v.sources
  kind : v.kind.join w.kind = v.kind

theorem grows_eq_false_iff {v w : Provenance} : v.grows w = false ↔ v.Covers w := by
  rw [grows, Bool.or_eq_false_iff, List.any_eq_false, decide_eq_false_iff_not, not_not]
  constructor
  · rintro ⟨hs, hk⟩
    exact ⟨fun a ha => by simpa using hs a ha, hk⟩
  · rintro ⟨hs, hk⟩
    exact ⟨fun a ha => by simpa using hs a ha, hk⟩

theorem Covers.refl (v : Provenance) : v.Covers v :=
  ⟨fun _ ha => ha, v.kind.join_self⟩

theorem Covers.trans {u v w : Provenance} (huv : u.Covers v) (hvw : v.Covers w) : u.Covers w :=
  ⟨fun a ha => huv.sources a (hvw.sources a ha), ValueKind.join_eq_left_trans huv.kind hvw.kind⟩

theorem merge_covers_left (v w : Provenance) : (v.merge w).Covers v :=
  ⟨fun _ ha => OffsetSet.mem_union.2 (.inl ha), ValueKind.join_join_left _ _⟩

theorem merge_covers_right (v w : Provenance) : (v.merge w).Covers w :=
  ⟨fun _ ha => OffsetSet.mem_union.2 (.inr ha), ValueKind.join_join_right _ _⟩

theorem mem_sources_merge {v w : Provenance} {a : UInt32} :
    a ∈ (v.merge w).sources ↔ a ∈ v.sources ∨ a ∈ w.sources :=
  OffsetSet.mem_union

theorem merge_comm (v w : Provenance) : v.merge w = w.merge v := by
  have hs : v.sources.union w.sources = w.sources.union v.sources := by
    apply OffsetSet.ext_mem
    intro a
    rw [OffsetSet.mem_union, OffsetSet.mem_union, or_comm]
  rw [merge, merge, hs, ValueKind.join_comm]

theorem Covers.merge_eq {v w : Provenance} (h : v.Covers w) : v.merge w = v := by
  have hs : v.sources.union w.sources = v.sources := by
    apply OffsetSet.ext_mem
    intro a
    rw [OffsetSet.mem_union]
    exact ⟨fun ha => ha.elim id (h.sources a), .inl⟩
  rw [merge, hs, h.kind]

end Provenance

namespace Frame

theorem stackGrows_eq_false_iff {a b : List Provenance} (h : a.length = b.length) :
    stackGrows a b = false ↔ List.Forall₂ Provenance.Covers a b := by
  rw [List.forall₂_iff_zip, stackGrows, List.any_eq_false]
  constructor
  · intro hz
    refine ⟨h, ?_⟩
    intro v w hvw
    exact Provenance.grows_eq_false_iff.1 (by simpa using hz (v, w) hvw)
  · rintro ⟨_, hz⟩ ⟨v, w⟩ hvw
    simpa using Provenance.grows_eq_false_iff.2 (hz hvw)

theorem registersGrow_eq_false_iff {a b : RegisterFile Provenance} :
    registersGrow a b = false ↔ ∀ r, r ≠ .ip → (a.get r).Covers (b.get r) := by
  rw [registersGrow, List.any_eq_false]
  constructor
  · intro h r hr
    apply Provenance.grows_eq_false_iff.1
    simpa [hr] using h r (Register.mem_all r)
  · intro h r _
    by_cases hr : r = .ip
    · simp [hr]
    · simpa [hr] using Provenance.grows_eq_false_iff.2 (h r hr)

/-- Merging `g` into `f` adds nothing. The instruction pointer does not count. -/
structure Covers (f g : Frame) : Prop where
  stack : List.Forall₂ Provenance.Covers f.stack g.stack
  registers : ∀ r, r ≠ .ip → (f.registers.get r).Covers (g.registers.get r)

theorem Covers.depth_eq {f g : Frame} (h : f.Covers g) : f.depth = g.depth :=
  h.stack.length_eq

theorem Covers.refl (f : Frame) : f.Covers f :=
  ⟨List.forall₂_same.2 fun v _ => .refl v, fun _ _ => .refl _⟩

theorem Covers.trans {f g k : Frame} (hfg : f.Covers g) (hgk : g.Covers k) : f.Covers k :=
  ⟨forall₂_comp hfg.stack hgk.stack fun _ _ _ => Provenance.Covers.trans,
    fun r hr => (hfg.registers r hr).trans (hgk.registers r hr)⟩

theorem mergeStack_covers {a b : List Provenance} (h : a.length = b.length) :
    List.Forall₂ Provenance.Covers (mergeStack a b) a ∧
      List.Forall₂ Provenance.Covers (mergeStack a b) b := by
  induction a generalizing b with
  | nil =>
    cases b with
    | nil => exact ⟨.nil, .nil⟩
    | cons w b => cases h
  | cons v a ih =>
    cases b with
    | nil => cases h
    | cons w b =>
      obtain ⟨hl, hr⟩ := ih (Nat.succ.inj h)
      exact ⟨.cons (v.merge_covers_left w) hl, .cons (v.merge_covers_right w) hr⟩

theorem mergeStack_forall₂ {R : Provenance → Provenance → Prop}
    (hmerge : ∀ u v w, R u w → R v w → R (u.merge v) w) {s t cells : List Provenance}
    (hs : List.Forall₂ R s cells) (ht : List.Forall₂ R t cells) :
    List.Forall₂ R (mergeStack s t) cells := by
  induction hs generalizing t with
  | nil =>
    cases ht
    exact .nil
  | cons hcell _ ih =>
    cases ht with
    | cons hother hrest => exact .cons (hmerge _ _ _ hcell hother) (ih hrest)

theorem get_mergeRegisters (a b : RegisterFile Provenance) {r : Register} (hr : r ≠ .ip) :
    (mergeRegisters a b).get r = (a.get r).merge (b.get r) := by
  rw [mergeRegisters, RegisterFile.get_ofFn, if_neg hr]

theorem merge_covers {f g m : Frame} {grew : Bool} (h : f.merge g = .ok (m, grew)) :
    m.Covers f ∧ m.Covers g := by
  rw [merge] at h
  split at h
  · next hd =>
    cases h
    obtain ⟨hl, hr⟩ := mergeStack_covers hd
    constructor
    · refine ⟨hl, fun r hip => ?_⟩
      rw [get_mergeRegisters _ _ hip]
      exact Provenance.merge_covers_left _ _
    · refine ⟨hr, fun r hip => ?_⟩
      rw [get_mergeRegisters _ _ hip]
      exact Provenance.merge_covers_right _ _
  · cases h

theorem place_of_merge {f g m : Frame} {grew : Bool} (h : f.merge g = .ok (m, grew)) :
    m.ip = f.ip ∧ m.key = f.key := by
  rw [merge] at h
  split at h
  · cases h
    exact ⟨rfl, rfl⟩
  · cases h

theorem covers_of_merge {f g m : Frame} (h : f.merge g = .ok (m, false)) : f.Covers g := by
  rw [merge] at h
  split at h
  · next hd =>
    simp only [Except.ok.injEq, Prod.mk.injEq, Bool.or_eq_false_iff] at h
    exact ⟨(stackGrows_eq_false_iff hd).1 h.2.1, registersGrow_eq_false_iff.1 h.2.2⟩
  · cases h

theorem mergeStack_comm (a b : List Provenance) : mergeStack a b = mergeStack b a :=
  List.zipWith_comm_of_comm Provenance.merge_comm

theorem mergeStack_of_covers {a b : List Provenance} (h : List.Forall₂ Provenance.Covers a b) :
    mergeStack a b = a := by
  induction h with
  | nil => rfl
  | cons hab _ ih =>
    simp only [mergeStack, List.zipWith_cons_cons, hab.merge_eq] at ih ⊢
    rw [ih]

theorem mergeRegisters_of_covers {a b : RegisterFile Provenance}
    (h : ∀ r, r ≠ .ip → (a.get r).Covers (b.get r)) : mergeRegisters a b = a := by
  apply RegisterFile.ext_get
  intro r
  by_cases hr : r = .ip
  · rw [mergeRegisters, RegisterFile.get_ofFn, if_pos hr]
  · rw [get_mergeRegisters _ _ hr, (h r hr).merge_eq]

theorem Covers.merge_eq {f g : Frame} (h : f.Covers g) : f.merge g = .ok (f, false) := by
  rw [merge, if_pos h.depth_eq, mergeStack_of_covers h.stack, mergeRegisters_of_covers h.registers,
    (stackGrows_eq_false_iff h.depth_eq).2 h.stack, registersGrow_eq_false_iff.2 h.registers]
  rfl

end Frame

end StackLift
