import StackLift.Proofs.Settled

namespace StackLift

/-- The push that made a value: its position on a path, and the offset of the instruction there. -/
structure Origin where
  position : Nat
  offset : UInt32
deriving DecidableEq

/-- The origins of the stack, top first, and of the registers that a path has popped into. -/
structure Origins where
  registers : RegisterFile (Option Origin)
  stack : List Origin

namespace Node

def popCount (node : Node) : Nat :=
  (node.opcode.pops.count? node.signature?).getD 0

def pushKind? (node : Node) : Option ValueKind :=
  (node.opcode.pushes.kind? node.opcode.kind node.signature?).getD none

theorem effectOn_eq_ok_iff {node : Node} {f : Frame} {e : Effect} (h : node.effectOn f = .ok e) :
    node.popCount ≤ f.depth ∧
      e = ⟨(f.stack.take node.popCount).reverse,
        (f.behindPops node.toInstruction node.popCount).behindPush node.toInstruction
          node.pushKind?⟩ := by
  obtain ⟨count, kind, hcount, hkind, hle, he⟩ := Frame.effect_cases h
  rw [popCount, pushKind?, hcount, hkind]
  exact ⟨hle, he⟩

end Node

namespace Origins

def start : Origins :=
  ⟨.fill none, []⟩

/-- What an instruction pushes comes from where its register was filled, else from the push. -/
def pushed (o : Origins) (i : Instruction) (self : Origin) : Origin :=
  match i.operand with
  | .register r => if r = .ip then self else (o.registers.get r).getD self
  | _ => self

def bindPopped (o : Origins) (i : Instruction) (popped : List Origin) : Origins :=
  match i.poppedRegister?, popped with
  | some r, origin :: _ => { o with registers := o.registers.set r (some origin) }
  | _, _ => o

def behindPops (o : Origins) (i : Instruction) (count : Nat) : Origins :=
  bindPopped { o with stack := o.stack.drop count } i (o.stack.take count).reverse

def behindPush (o : Origins) (i : Instruction) (self : Origin) : Option ValueKind → Origins
  | none => o
  | some _ => { o with stack := o.pushed i self :: o.stack }

def popped (o : Origins) (node : Node) : List Origin :=
  (o.stack.take node.popCount).reverse

def step (o : Origins) (node : Node) (position : Nat) : Origins :=
  (o.behindPops node.toInstruction node.popCount).behindPush node.toInstruction
    ⟨position, node.offset⟩ node.pushKind?

/-- Origins and frame agree, cell by cell and register by register, on where values come from. -/
structure Tracks (o : Origins) (R : Origin → Provenance → Prop) (f : Frame) : Prop where
  stack : List.Forall₂ R o.stack f.stack
  registers : ∀ r, r ≠ .ip → ∀ origin, o.registers.get r = some origin →
    R origin (f.registers.get r)

variable {R : Origin → Provenance → Prop} {o : Origins} {f g : Frame}

theorem Tracks.start (ip key : UInt32) : Origins.start.Tracks R (.start ip key) := by
  refine ⟨.nil, ?_⟩
  intro r _ origin h
  rw [Origins.start, RegisterFile.get_fill] at h
  cases h

theorem Tracks.popped (h : o.Tracks R f) (count : Nat) :
    List.Forall₂ R (o.stack.take count).reverse (f.stack.take count).reverse :=
  List.forall₂_reverse_iff.2 (List.forall₂_take count h.stack)

theorem Tracks.covers (h : o.Tracks R f) (hg : g.Covers f)
    (hR : ∀ origin v w, v.Covers w → R origin w → R origin v) : o.Tracks R g := by
  have hstack : List.Forall₂ (flip Provenance.Covers) f.stack g.stack :=
    List.Forall₂.flip hg.stack
  refine ⟨forall₂_comp h.stack hstack fun origin w v hw hv => hR origin v w hv hw, ?_⟩
  intro r hr origin horigin
  exact hR origin _ _ (hg.registers r hr) (h.registers r hr origin horigin)

theorem stack_behindPops (o : Origins) (i : Instruction) (count : Nat) :
    (o.behindPops i count).stack = o.stack.drop count := by
  simp only [behindPops, bindPopped]
  split <;> rfl

theorem Tracks.behindPops (h : o.Tracks R f) (i : Instruction) (count : Nat) :
    (o.behindPops i count).Tracks R (f.behindPops i count) := by
  constructor
  · rw [stack_behindPops, Frame.stack_behindPops]
    exact List.forall₂_drop count h.stack
  · intro r hr origin
    have hregister := h.registers r hr origin
    have hpopped := h.popped count
    simp only [Origins.behindPops, bindPopped, Frame.behindPops, Frame.bindPopped]
    generalize (o.stack.take count).reverse = origins at hpopped
    generalize (f.stack.take count).reverse = cells at hpopped
    cases i.poppedRegister? with
    | none =>
      simp only [Frame.setRegister, RegisterFile.get_set_of_ne _ _ hr]
      exact hregister
    | some r' =>
      cases hpopped with
      | nil =>
        simp only [Frame.setRegister, RegisterFile.get_set_of_ne _ _ hr]
        exact hregister
      | @cons head cell _ _ hhead _ =>
        simp only [Frame.setRegister, RegisterFile.get_set, hr, if_false]
        by_cases hrr : r = r'
        · simp only [hrr, if_true]
          intro horigin
          cases horigin
          exact hhead
        · simp only [hrr, if_false]
          exact hregister

structure All (o : Origins) (P : Origin → Prop) : Prop where
  stack : ∀ origin ∈ o.stack, P origin
  registers : ∀ r origin, o.registers.get r = some origin → P origin

variable {P Q : Origin → Prop}

theorem all_start : Origins.start.All P := by
  refine ⟨fun _ h => (nomatch h), ?_⟩
  intro r origin h
  rw [Origins.start, RegisterFile.get_fill] at h
  cases h

theorem All.mono (h : o.All P) (hPQ : ∀ origin, P origin → Q origin) : o.All Q :=
  ⟨fun origin horigin => hPQ origin (h.stack origin horigin),
    fun r origin horigin => hPQ origin (h.registers r origin horigin)⟩

theorem All.behindPops (h : o.All P) (i : Instruction) (count : Nat) :
    (o.behindPops i count).All P := by
  constructor
  · intro origin horigin
    rw [stack_behindPops] at horigin
    exact h.stack origin (List.mem_of_mem_drop horigin)
  · intro r origin
    have hpopped : ∀ origin ∈ (o.stack.take count).reverse, P origin :=
      fun origin horigin => h.stack origin (List.mem_of_mem_take (List.mem_reverse.1 horigin))
    simp only [Origins.behindPops, bindPopped]
    split
    · next r' _ _ _ heq =>
      rw [RegisterFile.get_set]
      split
      · intro horigin
        cases horigin
        exact hpopped _ (heq ▸ List.mem_cons_self)
      · exact h.registers r origin
    · exact h.registers r origin

theorem All.pushed (h : o.All P) (i : Instruction) {self : Origin} (hself : P self) :
    P (o.pushed i self) := by
  rw [Origins.pushed]
  split
  · next r _ =>
    split
    · exact hself
    · cases horigin : o.registers.get r with
      | none => exact hself
      | some origin => exact h.registers r origin horigin
  · exact hself

theorem All.step (h : o.All P) (node : Node) {position : Nat} (hself : P ⟨position, node.offset⟩) :
    (o.step node position).All P := by
  have hbehind := h.behindPops node.toInstruction node.popCount
  rw [Origins.step]
  cases node.pushKind? with
  | none => exact hbehind
  | some kind =>
    refine ⟨?_, hbehind.registers⟩
    intro origin horigin
    rcases List.mem_cons.1 horigin with rfl | horigin
    · exact hbehind.pushed node.toInstruction hself
    · exact hbehind.stack origin horigin

end Origins

/-- The origins behind the instructions at offsets, the latest first, entered with nothing known. -/
def Graph.originsAlong (graph : Graph) : List UInt32 → Option Origins
  | [] => some .start
  | offset :: earlier => do
    let node ← graph.get? offset
    let before ← graph.originsAlong earlier
    return before.step node earlier.length

theorem Graph.originsAlong_cons {graph : Graph} {before : Origins} {offset : UInt32}
    {earlier : List UInt32} {node : Node} (hnode : graph.get? offset = some node)
    (hbefore : graph.originsAlong earlier = some before) :
    graph.originsAlong (offset :: earlier) = some (before.step node earlier.length) := by
  simp [originsAlong, hnode, hbefore]

/-- Origins are instructions of the path, at their positions from its start. -/
theorem Graph.all_originsAlong {graph : Graph} {earlier : List UInt32} {o : Origins}
    (h : graph.originsAlong earlier = some o) :
    o.All fun origin => (graph.get? origin.offset).isSome ∧ ∃ later before,
      earlier = later ++ origin.offset :: before ∧ before.length = origin.position := by
  induction earlier generalizing o with
  | nil =>
    cases h
    exact Origins.all_start
  | cons offset earlier ih =>
    simp only [originsAlong, Option.bind_eq_bind, Option.bind_eq_some_iff, Option.pure_def,
      Option.some.injEq] at h
    obtain ⟨node, hnode, before, hbefore, rfl⟩ := h
    have hoffset : node.offset = offset := offset_of_get? hnode
    apply ((ih hbefore).mono _).step
    · rw [hoffset, hnode]
      exact ⟨rfl, [], earlier, rfl, rfl⟩
    · rintro origin ⟨hget, later, before, rfl, hposition⟩
      exact ⟨hget, offset :: later, before, rfl, hposition⟩

end StackLift
