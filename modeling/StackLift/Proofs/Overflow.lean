import StackLift.Discovery
import StackLift.Proofs.Effect

namespace StackLift

theorem bind_eq_error {α β : Type} {x : Except Fault α} {f : α → Except Fault β} {fault : Fault} :
    x >>= f = .error fault ↔ x = .error fault ∨ ∃ a, x = .ok a ∧ f a = .error fault := by
  cases x with
  | error first =>
    constructor
    · intro h
      cases h
      exact .inl rfl
    · rintro (h | ⟨_, h, _⟩) <;> cases h
      rfl
  | ok a =>
    constructor
    · exact fun h => .inr ⟨a, rfl, h⟩
    · rintro (h | ⟨_, h, hfault⟩) <;> cases h
      exact hfault

namespace Traced

variable {α β : Type} {x : Traced α}

theorem outcome_bind_eq_error {f : α → Traced β} {fault : Fault} :
    (x >>= f).outcome = .error fault ↔
      x.outcome = .error fault ∨ ∃ a, x.outcome = .ok a ∧ (f a).outcome = .error fault := by
  rw [outcome_bind]
  exact bind_eq_error

theorem bind_congr_of_ok {f g : α → Traced β} (h : ∀ a, x.outcome = .ok a → f a = g a) :
    x >>= f = x >>= g := by
  cases hx : x.outcome with
  | error fault => rw [bind_of_error f hx, bind_of_error g hx]
  | ok a => rw [bind_of_ok f hx, bind_of_ok g hx, h a hx]

end Traced

theorem InstructionSet.exists_call_of_signature? {isa : InstructionSet} {selector : UInt64}
    {signature : Signature} (h : isa.signature? selector = some signature) :
    ∃ call ∈ isa.calls, call.signature = signature := by
  rw [signature?, Option.map_eq_some_iff] at h
  obtain ⟨call, hcall, hsignature⟩ := h
  exact ⟨call, List.mem_of_find?_eq_some hcall, hsignature⟩

theorem Image.decode_ne_panic (image : Image) (isa : InstructionSet) (key : UInt32)
    (position : Nat) : (image.decode isa key position).1 ≠ .error .capacityOverflow := by
  have hbytes : ∀ n position, (image.readBytes key position n).1 ≠ .error .capacityOverflow := by
    intro n
    induction n with
    | zero =>
      intro position h
      cases h
    | succ n ih =>
      intro position h
      rw [readBytes] at h
      split at h
      · cases h
      · cases hrest : (image.readBytes key (position + 1) n).1 with
        | error fault =>
          simp only [hrest] at h
          exact ih _ (hrest.trans h)
        | ok bytes =>
          simp only [hrest] at h
          cases h
  intro h
  rw [decode] at h
  split at h
  · cases h
  · split at h
    · cases h
    · rcases bind_eq_error.1 h with h | ⟨bytes, _, h⟩
      · exact hbytes _ _ h
      · rcases bind_eq_error.1 h with h | ⟨operand, _, h⟩
        · simp only [operandOfBytes] at h
          split at h <;> cases h
        · cases h

theorem Frame.exists_signature_of_effect {f : Frame} {i : Instruction} {s : Option Signature}
    {overflow : Overflow} (h : f.effect i s overflow = .error .capacityOverflow) :
    ∃ signature, s = some signature ∧ ¬signature.HasRoom overflow := by
  rw [effect] at h
  cases hcount : i.opcode.pops.count? s overflow with
  | none =>
    rw [hcount] at h
    cases h
  | some count =>
    rw [hcount] at h
    by_cases hroom : Reservable count Provenance.byteSize
    · simp only [reserve_bind hroom] at h
      split at h
      · cases h
      · split at h <;> cases h
    · by_cases hpops : i.opcode.pops = .variable
      · rw [hpops] at hcount
        cases s with
        | none => cases hcount
        | some signature =>
          cases hcount
          exact ⟨signature, rfl, hroom⟩
      · rw [Pops.count?_fixed s none hpops] at hcount
        exact absurd (Pops.reservable hcount) hroom

abbrev Signature.FitsWord (signature : Signature) : Prop :=
  signature.arguments.toNat + 1 < UInt64.size

theorem Frame.effect_wraps {f : Frame} {i : Instruction} {s : Option Signature}
    (h : ∀ signature, s = some signature → signature.FitsWord) :
    f.effect i s .wraps = f.effect i s := by
  have hcount : i.opcode.pops.count? s .wraps = i.opcode.pops.count? s := by
    by_cases hpops : i.opcode.pops = .variable
    · rw [hpops]
      cases s with
      | none => rfl
      | some signature =>
        exact congrArg some (Overflow.succ_of_lt (h signature rfl) .wraps)
    · exact Pops.count?_fixed s s hpops
  rw [effect, effect, hcount]

namespace Discovery

variable {d : Discovery} {graph : Graph} {node : Node} {overflow : Overflow}

theorem resolveCall?_ne_panic : (d.resolveCall? graph node).outcome ≠ .error .capacityOverflow := by
  intro h
  rw [resolveCall?] at h
  split at h
  · split at h
    · rcases Traced.outcome_bind_eq_error.1 h with h | ⟨selector, _, h⟩
      · rw [Traced.outcome_ofExcept, Discovery.selector] at h
        split at h
        · cases h
        · split at h <;> cases h
      · rcases Traced.outcome_bind_eq_error.1 h with h | ⟨call, _, h⟩
        · rw [Traced.outcome_ofExcept, service] at h
          split at h <;> cases h
        · cases h
    · cases h
  · cases h

theorem resolveTarget_ne_panic :
    (d.resolveTarget graph node).outcome ≠ .error .capacityOverflow := by
  intro h
  rw [resolveTarget] at h
  split at h
  · rcases Traced.outcome_bind_eq_error.1 h with h | ⟨target, _, h⟩
    · rw [Traced.outcome_ofExcept, Discovery.target] at h
      split at h
      · cases h
      · split at h
        · cases h
        · split at h <;> cases h
    · cases hknown : node.inferred with
      | nothing | call =>
        rw [hknown] at h
        cases h
      | targets targets =>
        rw [hknown, gainTarget] at h
        split at h <;> cases h
  · cases h

theorem exists_call_of_resolveCall? {call : Call}
    (h : (d.resolveCall? graph node).outcome = .ok (some call)) :
    ∃ known ∈ d.isa.calls, known.signature = call.signature := by
  rw [resolveCall?] at h
  split at h
  · split at h
    · obtain ⟨selector, _, h⟩ := Traced.outcome_bind_eq_ok.1 h
      obtain ⟨found, hfound, h⟩ := Traced.outcome_bind_eq_ok.1 h
      cases h
      rw [Traced.outcome_ofExcept, service] at hfound
      split at hfound
      · cases hfound
      · next hsignature =>
        cases hfound
        exact InstructionSet.exists_call_of_signature? hsignature
    · cases h
  · cases h

theorem exists_call_of_follow
    (h : (d.follow graph node overflow).outcome = .error .capacityOverflow) :
    ∃ call ∈ d.isa.calls, ¬call.signature.HasRoom overflow := by
  rcases Traced.outcome_bind_eq_error.1 h with h | ⟨call, hcall, h⟩
  · exact absurd h resolveCall?_ne_panic
  · rcases Traced.outcome_bind_eq_error.1 h with h | ⟨effect, _, h⟩
    · obtain ⟨signature, hsignature, hroom⟩ := Frame.exists_signature_of_effect h
      obtain ⟨service, rfl, rfl⟩ := Option.map_eq_some_iff.1 hsignature
      obtain ⟨known, hknown, hsame⟩ := exists_call_of_resolveCall? hcall
      exact ⟨known, hknown, hsame ▸ hroom⟩
    · rcases Traced.outcome_bind_eq_error.1 h with h | ⟨inputs, _, h⟩
      · rw [Traced.outcome_ofExcept, recordInputs] at h
        split at h
        · cases h
        · split at h <;> cases h
      · rcases Traced.outcome_bind_eq_error.1 h with h | ⟨inferred, _, h⟩
        · exact absurd h resolveTarget_ne_panic
        · cases h

theorem exists_call_of_visit {frame : Frame}
    (h : (d.visit graph frame overflow).outcome = .error .capacityOverflow) :
    ∃ call ∈ d.isa.calls, ¬call.signature.HasRoom overflow := by
  rw [visit] at h
  split at h
  · rcases Traced.outcome_bind_eq_error.1 h with h | ⟨⟨merged, grew⟩, _, h⟩
    · rw [Traced.outcome_ofExcept, Frame.merge] at h
      split at h <;> cases h
    · cases grew with
      | false => cases h
      | true => exact exists_call_of_follow h
  · rcases Traced.outcome_bind_eq_error.1 h with h | ⟨node, _, h⟩
    · rcases bind_eq_error.1 h with h | ⟨decoded, _, h⟩
      · exact absurd h (Image.decode_ne_panic _ _ _ _)
      · cases h
    · exact exists_call_of_follow h

theorem exists_call_of_run {agenda : List Frame}
    (h : (d.run graph agenda overflow).outcome = .error .capacityOverflow) :
    ∃ call ∈ d.isa.calls, ¬call.signature.HasRoom overflow := by
  fun_induction d.run graph agenda overflow with
  | case1 => cases h
  | case2 graph frame rest fault events hvisit =>
    have hfault : fault = .capacityOverflow := Except.error.inj h
    have hpanic := congrArg Traced.outcome hvisit
    rw [hfault] at hpanic
    exact exists_call_of_visit hpanic
  | case3 graph frame rest next frames events hvisit final ih => exact ih h

theorem exists_call_of_enterAll {exports : List Export}
    (h : (d.enterAll graph exports overflow).outcome = .error .capacityOverflow) :
    ∃ call ∈ d.isa.calls, ¬call.signature.HasRoom overflow := by
  induction exports generalizing graph with
  | nil => cases h
  | cons entry rest ih =>
    rcases Traced.outcome_bind_eq_error.1 h with h | ⟨next, _, h⟩
    · rcases Traced.outcome_bind_eq_error.1 h with h | ⟨_, _, h⟩
      · cases h
      · rw [Traced.outcome_reportFailure] at h
        exact exists_call_of_run h
    · exact ih h

/-- A discovery panics only if some service consumes more than a list can hold. -/
theorem exists_call_of_discover {exports : List Export}
    (h : (d.discover exports overflow).outcome = .error .capacityOverflow) :
    ∃ call ∈ d.isa.calls, ¬call.signature.HasRoom overflow := by
  rcases Traced.outcome_bind_eq_error.1 h with h | ⟨graph, _, h⟩
  · exact exists_call_of_enterAll h
  · cases h

section

variable (hfits : ∀ call ∈ d.isa.calls, call.signature.FitsWord)
include hfits

theorem follow_wraps : d.follow graph node .wraps = d.follow graph node := by
  apply Traced.bind_congr_of_ok
  intro call hcall
  rw [Frame.effect_wraps]
  intro signature hsignature
  obtain ⟨service, rfl, rfl⟩ := Option.map_eq_some_iff.1 hsignature
  obtain ⟨known, hknown, hsame⟩ := exists_call_of_resolveCall? hcall
  exact hsame ▸ hfits known hknown

theorem visit_wraps {frame : Frame} : d.visit graph frame .wraps = d.visit graph frame := by
  rw [visit, visit]
  simp only [follow_wraps hfits]

theorem run_wraps {agenda : List Frame} : d.run graph agenda .wraps = d.run graph agenda := by
  fun_induction d.run graph agenda with
  | case1 => rw [run_nil]
  | case2 graph frame rest fault events hvisit =>
    rw [run_cons, visit_wraps hfits, hvisit]
    rfl
  | case3 graph frame rest next frames events hvisit final ih =>
    rw [run_cons, visit_wraps hfits, hvisit]
    change (⟨(d.run next (frames ++ rest) .wraps).outcome,
      events ++ (d.run next (frames ++ rest) .wraps).events⟩ : Traced Graph) = _
    rw [ih]

theorem enterAll_wraps {exports : List Export} :
    d.enterAll graph exports .wraps = d.enterAll graph exports := by
  induction exports generalizing graph with
  | nil => rfl
  | cons entry rest ih =>
    rw [enterAll, enterAll, enter, enter, run_wraps hfits]
    exact Traced.bind_congr_of_ok fun _ _ => ih

/-- If what every service consumes fits a word, it makes no difference how sums overflow. -/
theorem discover_wraps {exports : List Export} :
    d.discover exports .wraps = d.discover exports := by
  rw [discover, discover, enterAll_wraps hfits]

end

end Discovery

end StackLift
