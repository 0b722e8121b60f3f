import StackLift.Frame.Effect

namespace StackLift

theorem Opcode.variableArity_eq_false_iff {opcode : Opcode} :
    opcode.variableArity = false ↔ opcode.pops ≠ .variable ∧ opcode.pushes ≠ .variable := by
  simp [variableArity]

theorem Pops.count?_fixed (s t : Option Signature) {overflow overflow' : Overflow} :
    ∀ {pops : Pops}, pops ≠ .variable → pops.count? s overflow = pops.count? t overflow'
  | .none, _ => rfl
  | .one, _ => rfl
  | .two, _ => rfl
  | .variable, h => absurd rfl h

theorem Pops.reservable {count : Nat} : ∀ {pops : Pops}, pops.count? .none = some count →
    Reservable count Provenance.byteSize
  | .none, h => by cases h; decide
  | .one, h => by cases h; decide
  | .two, h => by cases h; decide
  | .variable, h => nomatch h

theorem Pushes.kind?_fixed (kind : ValueKind) (s t : Option Signature) :
    ∀ {pushes : Pushes}, pushes ≠ .variable → pushes.kind? kind s = pushes.kind? kind t
  | .none, _ => rfl
  | .one, _ => rfl
  | .variable, h => absurd rfl h

namespace Frame

/-- The frame behind an instruction that pops `count` cells, before it pushes. -/
def behindPops (f : Frame) (i : Instruction) (count : Nat) : Frame :=
  bindPopped { f.setRegister .ip (.producedBy i.offset .dword) with stack := f.stack.drop count } i
    (f.stack.take count).reverse

def behindPush (f : Frame) (i : Instruction) : Option ValueKind → Frame
  | none => f
  | some kind => f.push (f.pushed i kind)

theorem effect_eq_ok_iff {f : Frame} {i : Instruction} {s : Option Signature} {e : Effect}
    {overflow : Overflow} :
    f.effect i s overflow = .ok e ↔ ∃ count kind, i.opcode.pops.count? s overflow = some count ∧
      Reservable count Provenance.byteSize ∧
      i.opcode.pushes.kind? i.opcode.kind s = some kind ∧ count ≤ f.depth ∧
      e = ⟨(f.stack.take count).reverse, (f.behindPops i count).behindPush i kind⟩ := by
  rw [effect]
  cases i.opcode.pops.count? s overflow with
  | none => simp
  | some count =>
    by_cases hroom : Reservable count Provenance.byteSize
    · simp only [reserve_bind hroom]
      by_cases hd : count ≤ f.depth
      · have ht : (f.setRegister .ip (.producedBy i.offset .dword)).take? count =
            some ((f.stack.take count).reverse,
              { f.setRegister .ip (.producedBy i.offset .dword) with
                stack := f.stack.drop count }) := if_pos hd
        simp only [ht]
        rcases i.opcode.pushes.kind? i.opcode.kind s with _ | _ | kind
        · simp
        · simp [hd, hroom, behindPush, behindPops, eq_comm]
        · simp [hd, hroom, behindPush, behindPops, eq_comm]
      · have ht : (f.setRegister .ip (.producedBy i.offset .dword)).take? count = none := if_neg hd
        simp [ht, hd]
    · simp only [reserve_bind_of_not hroom]
      simp [hroom]

theorem effect_cases {f : Frame} {i : Instruction} {s : Option Signature} {e : Effect}
    (h : f.effect i s = .ok e) : ∃ count kind, i.opcode.pops.count? s = some count ∧
      i.opcode.pushes.kind? i.opcode.kind s = some kind ∧ count ≤ f.depth ∧
      e = ⟨(f.stack.take count).reverse, (f.behindPops i count).behindPush i kind⟩ := by
  obtain ⟨count, kind, hcount, _, hkind, hle, he⟩ := effect_eq_ok_iff.1 h
  exact ⟨count, kind, hcount, hkind, hle, he⟩

theorem effect_plain {f : Frame} {i : Instruction} {count : Nat} {kind : Option ValueKind}
    (hcount : i.opcode.pops.count? none = some count)
    (hkind : i.opcode.pushes.kind? i.opcode.kind none = some kind) (hle : count ≤ f.depth) :
    f.effect i none =
      .ok ⟨(f.stack.take count).reverse, (f.behindPops i count).behindPush i kind⟩ :=
  effect_eq_ok_iff.2 ⟨count, kind, hcount, Pops.reservable hcount, hkind, hle, rfl⟩

theorem effect_underflow {f : Frame} {i : Instruction} {count : Nat}
    (hcount : i.opcode.pops.count? none = some count) (hlt : f.depth < count) :
    f.effect i none = .error (.stackUnderflow i.offset) := by
  have htake : (f.setRegister .ip (.producedBy i.offset .dword)).take? count = none :=
    if_neg (Nat.not_le_of_lt hlt)
  simp only [effect, hcount, reserve_bind (Pops.reservable hcount), htake]

theorem effect_fixed {i : Instruction} (h : i.opcode.variableArity = false) (f : Frame)
    (s t : Option Signature) : f.effect i s = f.effect i t := by
  obtain ⟨hpops, hpushes⟩ := Opcode.variableArity_eq_false_iff.1 h
  rw [effect, effect, Pops.count?_fixed s t hpops, Pushes.kind?_fixed _ s t hpushes]

@[simp] theorem stack_bindPopped (f : Frame) (i : Instruction) (popped : List Provenance) :
    (f.bindPopped i popped).stack = f.stack := by
  simp only [bindPopped]
  split <;> rfl

@[simp] theorem stack_behindPops (f : Frame) (i : Instruction) (count : Nat) :
    (f.behindPops i count).stack = f.stack.drop count :=
  stack_bindPopped _ _ _

theorem depth_behindPush (f : Frame) (i : Instruction) (kind : Option ValueKind) :
    (f.behindPush i kind).depth = f.depth + (if kind.isSome then 1 else 0) := by
  cases kind <;> rfl

theorem depth_behindPops (f : Frame) (i : Instruction) (count : Nat) :
    (f.behindPops i count).depth = f.depth - count := by
  rw [depth, stack_behindPops, List.length_drop, depth]

theorem registers_behindPops (f : Frame) {i : Instruction} (h : i.poppedRegister? = none)
    (count : Nat) :
    (f.behindPops i count).registers = f.registers.set .ip (.producedBy i.offset .dword) := by
  simp only [behindPops, bindPopped, h]
  rfl

theorem registers_behindPops_pop {f : Frame} {i : Instruction} {r : Register} {v : Provenance}
    {rest : List Provenance} (h : i.poppedRegister? = some r) (hstack : f.stack = v :: rest) :
    (f.behindPops i 1).registers =
      (f.registers.set .ip (.producedBy i.offset .dword)).set r v := by
  simp only [behindPops, bindPopped, h, hstack]
  rfl

/-- What an instruction pushes behind its pops is a value of its own, or what is known of its
register. -/
theorem pushed_cases (f : Frame) {i : Instruction} (h : i.poppedRegister? = none) (count : Nat)
    (kind : ValueKind) :
    ((∃ kind', (f.behindPops i count).pushed i kind = .producedBy i.offset kind') ∧
      ∀ r, i.operand = .register r → r ≠ .ip → (f.registers.get r).isEntry = true) ∨
    ∃ r, i.operand = .register r ∧ r ≠ .ip ∧ (f.registers.get r).isEntry = false ∧
      (f.behindPops i count).pushed i kind = f.registers.get r := by
  cases hoperand : i.operand with
  | none =>
    have hpushed : (f.behindPops i count).pushed i kind = .producedBy i.offset kind := by
      simp only [pushed, hoperand]
    exact .inl ⟨⟨kind, hpushed⟩, fun _ hr => (nomatch hr)⟩
  | immediate value =>
    have hpushed : (f.behindPops i count).pushed i kind = .producedBy i.offset kind := by
      simp only [pushed, hoperand]
    exact .inl ⟨⟨kind, hpushed⟩, fun _ hr => (nomatch hr)⟩
  | register r =>
    have hpushed : (f.behindPops i count).pushed i kind =
        if ((f.behindPops i count).registers.get r).isEntry then .producedBy i.offset kind
        else (f.behindPops i count).registers.get r := by
      simp only [pushed, hoperand]
    rw [registers_behindPops f h] at hpushed
    by_cases hr : r = .ip
    · rw [hr, RegisterFile.get_set_self] at hpushed
      refine .inl ⟨⟨.dword, hpushed⟩, ?_⟩
      intro r' hr' hip
      cases hr'
      exact absurd hr hip
    · rw [RegisterFile.get_set_of_ne _ _ hr] at hpushed
      cases hentry : (f.registers.get r).isEntry with
      | true =>
        rw [hentry, if_pos rfl] at hpushed
        refine .inl ⟨⟨kind, hpushed⟩, ?_⟩
        intro r' hr' _
        cases hr'
        exact hentry
      | false =>
        rw [hentry, if_neg Bool.false_ne_true] at hpushed
        exact .inr ⟨r, rfl, hr, hentry, hpushed⟩

theorem count?_popped {f : Frame} {i : Instruction} {s : Option Signature} {e : Effect}
    (h : f.effect i s = .ok e) : i.opcode.pops.count? s = some e.popped.length := by
  obtain ⟨count, _, hcount, _, hle, rfl⟩ := effect_cases h
  rw [hcount, List.length_reverse, List.length_take_of_le hle]

theorem popped_eq {f : Frame} {i : Instruction} {s : Option Signature} {e : Effect}
    (h : f.effect i s = .ok e) : e.popped = (f.stack.take e.popped.length).reverse := by
  obtain ⟨count, _, _, _, hle, rfl⟩ := effect_cases h
  have hlength : (f.stack.take count).length = count := List.length_take_of_le hle
  rw [List.length_reverse, hlength]

@[simp] theorem key_bindPopped (f : Frame) (i : Instruction) (popped : List Provenance) :
    (f.bindPopped i popped).key = f.key := by
  simp only [bindPopped]
  split <;> rfl

theorem key_effect {f : Frame} {i : Instruction} {s : Option Signature} {e : Effect}
    (h : f.effect i s = .ok e) : e.frame.key = f.key := by
  obtain ⟨count, kind, _, _, _, rfl⟩ := effect_cases h
  cases kind <;> exact key_bindPopped _ _ _

/-- Whether an effect exists, and how deep it leaves the stack, depends on the depth alone. -/
theorem effect_of_depth_eq {f g : Frame} {i : Instruction} {s : Option Signature} {e : Effect}
    (h : f.effect i s = .ok e) (hd : g.depth = f.depth) :
    ∃ e', g.effect i s = .ok e' ∧ e'.frame.depth = e.frame.depth := by
  obtain ⟨count, kind, hc, hroom, hk, hle, rfl⟩ := effect_eq_ok_iff.1 h
  refine ⟨_, effect_eq_ok_iff.2 ⟨count, kind, hc, hroom, hk, hd ▸ hle, rfl⟩, ?_⟩
  simp only [depth_behindPush, depth_behindPops, hd]

end Frame

end StackLift
