import Mathlib.Order.Bounds.Basic
import Mathlib.Order.Lattice
import StackLift.Proofs.Covering

namespace StackLift

/-- A kind is below itself and below some object. -/
instance : PartialOrder ValueKind where
  le a b := a = b ∨ b = .object
  le_refl a := .inl rfl
  le_trans a b c hab hbc := by
    rcases hbc with rfl | hc
    · exact hab
    · exact .inr hc
  le_antisymm a b hab hba := by
    rcases hab with hab | hb
    · exact hab
    · rcases hba with hba | ha
      · exact hba.symm
      · rw [ha, hb]

theorem ValueKind.join_eq_left_iff {a b : ValueKind} : a.join b = a ↔ b ≤ a := by
  rw [join]
  split
  · next heq => exact ⟨fun _ => .inl heq.symm, fun _ => rfl⟩
  · next hne => exact ⟨fun ha => .inr ha.symm, fun hle => (hle.resolve_left (Ne.symm hne)).symm⟩

namespace Provenance

/-- All that `v` may be, `w` may be too. -/
instance : PartialOrder Provenance where
  le v w := (∀ a ∈ v.sources, a ∈ w.sources) ∧ v.kind ≤ w.kind
  le_refl v := ⟨fun _ ha => ha, le_refl v.kind⟩
  le_trans u v w huv hvw := ⟨fun a ha => hvw.1 a (huv.1 a ha), le_trans huv.2 hvw.2⟩
  le_antisymm v w hvw hwv := by
    obtain ⟨sources, kind⟩ := v
    have hsources : sources = w.sources := OffsetSet.ext_mem fun a => ⟨hvw.1 a, hwv.1 a⟩
    have hkind : kind = w.kind := le_antisymm hvw.2 hwv.2
    rw [hsources, hkind]

theorem covers_iff_le {v w : Provenance} : v.Covers w ↔ w ≤ v :=
  ⟨fun h => ⟨h.sources, ValueKind.join_eq_left_iff.1 h.kind⟩,
    fun h => ⟨h.1, ValueKind.join_eq_left_iff.2 h.2⟩⟩

theorem Covers.merge {u v w : Provenance} (hv : u.Covers v) (hw : u.Covers w) :
    u.Covers (v.merge w) := by
  refine ⟨fun a ha => ?_, ?_⟩
  · exact (mem_sources_merge.1 ha).elim (hv.sources a) (hw.sources a)
  · change u.kind.join (v.kind.join w.kind) = u.kind
    rw [← ValueKind.join_assoc, hv.kind, hw.kind]

instance : SemilatticeSup Provenance where
  sup := merge
  le_sup_left v w := covers_iff_le.1 (v.merge_covers_left w)
  le_sup_right v w := covers_iff_le.1 (v.merge_covers_right w)
  sup_le _ _ _ hv hw := covers_iff_le.1 ((covers_iff_le.2 hv).merge (covers_iff_le.2 hw))

end Provenance

namespace Frame

variable {a b m f g u : Frame} {frames others : List Frame} {grew : Bool}

/-- Cell by cell and register by register. The instruction pointer does not count. -/
instance : Preorder Frame where
  le f g := List.Forall₂ (· ≤ ·) f.stack g.stack ∧
    ∀ r : Register, r ≠ .ip → f.registers.get r ≤ g.registers.get r
  le_refl f := ⟨List.forall₂_same.2 fun v _ => le_refl v, fun _ _ => le_refl _⟩
  le_trans f g k hfg hgk := ⟨forall₂_comp hfg.1 hgk.1 fun _ _ _ => le_trans,
    fun r hr => le_trans (hfg.2 r hr) (hgk.2 r hr)⟩

theorem covers_iff_le : f.Covers g ↔ g ≤ f := by
  constructor
  · intro h
    have hcells := h.stack.imp fun _ _ => Provenance.covers_iff_le.1
    exact ⟨hcells.flip, fun r hr => Provenance.covers_iff_le.1 (h.registers r hr)⟩
  · intro h
    have hcells := h.1.imp fun _ _ => Provenance.covers_iff_le.2
    exact ⟨hcells.flip, fun r hr => Provenance.covers_iff_le.2 (h.2 r hr)⟩

theorem le_iff_of_merge (h : a.merge b = .ok (m, grew)) : m ≤ u ↔ a ≤ u ∧ b ≤ u := by
  obtain ⟨hleft, hright⟩ := merge_covers h
  constructor
  · exact fun hm => ⟨(covers_iff_le.1 hleft).trans hm, (covers_iff_le.1 hright).trans hm⟩
  · intro ⟨ha, hb⟩
    rw [merge] at h
    split at h
    · cases h
      refine ⟨mergeStack_forall₂ (fun _ _ _ => sup_le) ha.1 hb.1, fun r hr => ?_⟩
      change (mergeRegisters a.registers b.registers).get r ≤ _
      rw [get_mergeRegisters _ _ hr]
      exact sup_le (ha.2 r hr) (hb.2 r hr)
    · cases h

theorem grew_iff_of_merge (h : a.merge b = .ok (m, grew)) : grew = true ↔ ¬b ≤ a := by
  cases grew with
  | false => simpa using covers_iff_le.1 (covers_of_merge h)
  | true =>
    simp only [true_iff]
    intro hle
    rw [(covers_iff_le.2 hle).merge_eq] at h
    cases h

theorem eq_iff_of_merge (h : a.merge b = .ok (m, grew)) : m = a ↔ b ≤ a := by
  constructor
  · rintro rfl
    exact covers_iff_le.1 (merge_covers h).2
  · intro hle
    rw [(covers_iff_le.2 hle).merge_eq] at h
    cases h
    rfl

/-- The frame stands where the other one stands, under its key and with its instruction pointer. -/
structure InPlaceOf (f g : Frame) : Prop where
  ip : f.ip = g.ip
  key : f.key = g.key
  pointer : f.registers.get .ip = g.registers.get .ip

theorem InPlaceOf.symm (h : f.InPlaceOf g) : g.InPlaceOf f :=
  ⟨h.ip.symm, h.key.symm, h.pointer.symm⟩

theorem InPlaceOf.trans {k : Frame} (hfg : f.InPlaceOf g) (hgk : g.InPlaceOf k) : f.InPlaceOf k :=
  ⟨hfg.ip.trans hgk.ip, hfg.key.trans hgk.key, hfg.pointer.trans hgk.pointer⟩

theorem inPlaceOf_of_merge (h : a.merge b = .ok (m, grew)) : m.InPlaceOf a := by
  obtain ⟨hip, hkey⟩ := place_of_merge h
  refine ⟨hip, hkey, ?_⟩
  rw [merge] at h
  split at h
  · cases h
    change (mergeRegisters a.registers b.registers).get .ip = _
    rw [mergeRegisters, RegisterFile.get_ofFn, if_pos rfl]
  · cases h

theorem InPlaceOf.eq_of_le (h : f.InPlaceOf g) (hfg : f ≤ g) (hgf : g ≤ f) : f = g := by
  have hstack : f.stack = g.stack := by
    rw [← mergeStack_of_covers (covers_iff_le.2 hgf).stack, mergeStack_comm]
    exact mergeStack_of_covers (covers_iff_le.2 hfg).stack
  have hregisters : f.registers = g.registers := by
    apply RegisterFile.ext_get
    intro r
    by_cases hr : r = .ip
    · rw [hr, h.pointer]
    · exact le_antisymm (hfg.2 r hr) (hgf.2 r hr)
  obtain ⟨ip, key, registers, stack⟩ := f
  obtain rfl : ip = g.ip := h.ip
  obtain rfl : key = g.key := h.key
  obtain rfl : registers = g.registers := hregisters
  obtain rfl : stack = g.stack := hstack
  rfl

theorem merge_eq_error_iff {fault : Fault} :
    a.merge b = .error fault ↔
      a.depth ≠ b.depth ∧ fault = .stackMismatch a.ip a.depth b.depth := by
  rw [merge]
  split
  · next hdepth => simp [hdepth]
  · next hdepth => simp [hdepth, eq_comm]

theorem exists_merge (h : a.depth = b.depth) : ∃ m grew, a.merge b = .ok (m, grew) := by
  rw [merge, if_pos h]
  exact ⟨_, _, rfl⟩

theorem depth_of_merge (h : a.merge b = .ok (m, grew)) : m.depth = a.depth :=
  (merge_covers h).1.depth_eq

def mergeAll (a : Frame) : List Frame → Except Fault Frame
  | [] => .ok a
  | f :: rest => do
    let (m, _) ← a.merge f
    m.mergeAll rest

/-- Frames of the same depth merge to what lies above another frame exactly if they all do. -/
theorem exists_mergeAll (h : ∀ f ∈ frames, f.depth = a.depth) :
    ∃ m, a.mergeAll frames = .ok m ∧ m.InPlaceOf a ∧
      ∀ u, m ≤ u ↔ a ≤ u ∧ ∀ f ∈ frames, f ≤ u := by
  induction frames generalizing a with
  | nil => exact ⟨a, rfl, ⟨rfl, rfl, rfl⟩, fun u => by simp⟩
  | cons f rest ih =>
    obtain ⟨m, grew, hmerge⟩ := exists_merge (h f List.mem_cons_self).symm
    have hrest : ∀ g ∈ rest, g.depth = m.depth := by
      intro g hg
      rw [depth_of_merge hmerge]
      exact h g (List.mem_cons_of_mem _ hg)
    obtain ⟨final, hfinal, hplace, hle⟩ := ih hrest
    refine ⟨final, ?_, hplace.trans (inPlaceOf_of_merge hmerge), ?_⟩
    · rw [mergeAll, hmerge]
      exact hfinal
    · intro u
      rw [hle, le_iff_of_merge hmerge, List.forall_mem_cons, and_assoc]

/-- Two frames merge exactly if they are equally deep. What they merge to is in the place of the
first frame and is the least above both, and growth is reported exactly if it differs from the first
frame, which is to say that the second was not below it. So frames that are merged into one, one
after the other, come to the least frame above them all, whatever their order and their number. -/
theorem merge_isLUB (a b : Frame) :
    (∀ fault, a.merge b = .error fault ↔
      a.depth ≠ b.depth ∧ fault = .stackMismatch a.ip a.depth b.depth) ∧
    (a.depth = b.depth → ∃ m grew, a.merge b = .ok (m, grew) ∧ m.InPlaceOf a ∧ IsLUB {a, b} m ∧
      (grew = true ↔ m ≠ a) ∧ (grew = true ↔ ¬b ≤ a)) ∧
    ∀ frames : List Frame, (∀ f ∈ frames, f.depth = a.depth) →
      ∃ m, m.InPlaceOf a ∧ IsLUB (insert a {f | f ∈ frames}) m ∧
        ∀ others : List Frame, (∀ f, f ∈ others ↔ f ∈ frames) → a.mergeAll others = .ok m := by
  refine ⟨fun _ => merge_eq_error_iff, ?_, ?_⟩
  · intro hdepth
    obtain ⟨m, grew, hmerge⟩ := exists_merge hdepth
    have hgrew := grew_iff_of_merge hmerge
    refine ⟨m, grew, hmerge, inPlaceOf_of_merge hmerge, ?_, ?_, hgrew⟩
    · rw [isLUB_iff_le_iff]
      intro u
      rw [le_iff_of_merge hmerge, upperBounds_insert, upperBounds_singleton]
      exact Iff.rfl
    · rw [hgrew, Ne, eq_iff_of_merge hmerge]
  · intro frames hdepth
    obtain ⟨m, _, hplace, hle⟩ := exists_mergeAll hdepth
    refine ⟨m, hplace, ?_, ?_⟩
    · rw [isLUB_iff_le_iff]
      intro u
      rw [hle, upperBounds_insert]
      exact Iff.rfl
    · intro others hmem
      obtain ⟨n, hn, hplace', hle'⟩ :=
        exists_mergeAll fun f hf => hdepth f ((hmem f).1 hf)
      -- Both lie below exactly the same frames, so below each other.
      have hsame : ∀ u, n ≤ u ↔ m ≤ u := by
        intro u
        rw [hle, hle']
        exact and_congr_right fun _ => forall_congr' fun f => imp_congr_left (hmem f)
      have hnm : n ≤ m := (hsame m).2 (le_refl m)
      have hmn : m ≤ n := (hsame n).1 (le_refl n)
      rw [hn, (hplace'.trans hplace.symm).eq_of_le hnm hmn]

end Frame

end StackLift
