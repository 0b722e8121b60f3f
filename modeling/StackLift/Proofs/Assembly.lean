import StackLift.Proofs.Encoding

namespace StackLift

structure Line where
  code : UInt8
  operand : Operand
deriving DecidableEq

def InstructionSet.Encodes (isa : InstructionSet) (line : Line) : Prop :=
  ∃ opcode word, isa.opcode? line.code = some opcode ∧
    line.operand.field? opcode.form = some word

def Decoded.placed (decoded : Decoded) (offset : UInt32) : Instruction :=
  ⟨offset, decoded.opcode, decoded.operand, decoded.size⟩

theorem Decoded.toNat_size (decoded : Decoded) :
    decoded.size.toNat = 1 + decoded.opcode.form.width := by
  rw [size]
  cases decoded.opcode.form <;> rfl

/-- The instruction as its encoding keeps it. -/
def Instruction.kept (i : Instruction) : Instruction :=
  { i with operand := i.operand.kept i.opcode.form }

structure Instruction.Lists (i : Instruction) (isa : InstructionSet) (line : Line) : Prop where
  opcode : isa.opcode? line.code = some i.opcode
  operand : i.operand = line.operand

/-- Emits the lines in order, and lists their instructions at their offsets. -/
def Assembler.emitAll (a : Assembler) : List Line → Except Fault (List Instruction × Assembler)
  | [] => return ([], a)
  | line :: rest => do
    let opcode ← a.opcode a.position line.code
    let (offset, next) ← a.emit line.code line.operand
    let (listing, final) ← next.emitAll rest
    return (Decoded.placed ⟨opcode, line.operand⟩ offset :: listing, final)

namespace Image

variable {image : Image} {isa : InstructionSet} {key : UInt32} {position : Nat} {i : Instruction}

/-- The instruction stands at its offset: it is what decodes there. -/
structure Stands (image : Image) (isa : InstructionSet) (key : UInt32) (position : Nat)
    (i : Instruction) : Prop where
  offset : i.offset.toNat = position
  decode : (image.decode isa key position).1 = .ok ⟨i.opcode, i.operand⟩
  size : i.size = (Decoded.mk i.opcode i.operand).size

inductive Lays (image : Image) (isa : InstructionSet) (key : UInt32) :
    Nat → List Instruction → Prop
  | nil (start : Nat) : Lays image isa key start []
  | cons {start : Nat} {i : Instruction} {rest : List Instruction} :
      image.Stands isa key start i → Lays image isa key (start + (1 + i.opcode.form.width)) rest →
      Lays image isa key start (i :: rest)

theorem Stands.toNat_size (h : image.Stands isa key position i) :
    i.size.toNat = 1 + i.opcode.form.width := by
  rw [h.size]
  exact Decoded.toNat_size _

theorem stands_of_spells {code : UInt8} {opcode : Opcode} {operand : Operand} {word : UInt64}
    (hopcode : isa.opcode? code = some opcode) (hword : operand.field? opcode.form = some word)
    (hspells : image.Spells key position (code :: littleEndian opcode.form.width word))
    (hlt : position < UInt32.size) :
    image.Stands isa key position (Decoded.placed ⟨opcode, operand⟩ position.toUInt32).kept :=
  ⟨UInt32.toNat_ofNat_of_lt' hlt, congrArg Prod.fst (decode_of_spells hopcode hword hspells), rfl⟩

theorem Lays.start_lt {start : Nat} {instructions : List Instruction}
    (h : image.Lays isa key start instructions) (hne : instructions ≠ []) :
    start < UInt32.size := by
  cases h with
  | nil => exact absurd rfl hne
  | cons hi _ => exact hi.offset ▸ UInt32.toNat_lt _

theorem Stands.toNat_next (h : image.Stands isa key position i)
    (hlt : position + (1 + i.opcode.form.width) < UInt32.size) :
    i.next.toNat = position + (1 + i.opcode.form.width) := by
  rw [Instruction.next, UInt32.toNat_add, h.offset, h.toNat_size]
  exact Nat.mod_eq_of_lt hlt

theorem Lays.behind {start : Nat} {rest : List Instruction}
    (h : image.Lays isa key start (i :: rest)) (hne : rest ≠ []) :
    image.Lays isa key i.next.toNat rest ∧ i.offset < i.next := by
  obtain _ | ⟨hstands, hrest⟩ := h
  have hnext := hstands.toNat_next (hrest.start_lt hne)
  refine ⟨hnext ▸ hrest, ?_⟩
  rw [UInt32.lt_iff_toNat_lt, hnext, hstands.offset]
  omega

theorem Lays.start_le {start : Nat} {instructions : List Instruction} {last : Instruction}
    (h : image.Lays isa key start (instructions ++ [last])) : start ≤ last.offset.toNat := by
  induction instructions generalizing start with
  | nil =>
    obtain _ | ⟨hstands, _⟩ := h
    exact Nat.le_of_eq hstands.offset.symm
  | cons i rest ih =>
    obtain _ | ⟨_, hrest⟩ := h
    exact Nat.le_trans (Nat.le_add_right _ _) (ih hrest)

end Image

namespace Assembler

variable {a : Assembler}

theorem emit_eq {code : UInt8} {opcode : Opcode} {operand : Operand} {word : UInt64}
    (hopcode : a.isa.opcode? code = some opcode)
    (hword : operand.field? opcode.form = some word) :
    a.emit code operand = .ok (a.position, { a with
      code := a.code ++ maskBytes a.key a.code.size
        (code :: littleEndian opcode.form.width word) }) := by
  have hbytes : encodeOperand a.position opcode operand =
      .ok (littleEndian opcode.form.width word) := by
    simp only [encodeOperand, hword]
  rw [emit, Assembler.opcode, hopcode]
  change (encodeOperand a.position opcode operand >>= fun bytes => _) = _
  rw [hbytes]
  rfl

/-- The lines are emitted, and what is listed for them stands in the code from where the first of
them was put, if every byte has an offset of its own. -/
theorem emitAll_lays {lines : List Line} (h : ∀ line ∈ lines, a.isa.Encodes line) :
    ∃ listing b, ∃ bytes : List UInt8,
      a.emitAll lines = .ok (listing, b) ∧ b.code = a.code ++ bytes ∧
      List.Forall₂ (fun i line => i.Lists a.isa line) listing lines ∧
      (b.code.size ≤ UInt32.size →
        Image.Lays b.code a.isa a.key a.code.size (listing.map Instruction.kept)) := by
  induction lines generalizing a with
  | nil => exact ⟨[], a, [], rfl, Array.appendList_nil.symm, .nil, fun _ => .nil _⟩
  | cons line rest ih =>
    obtain ⟨opcode, word, hopcode, hword⟩ := h line List.mem_cons_self
    let field := line.code :: littleEndian opcode.form.width word
    let next : Assembler := { a with code := a.code ++ maskBytes a.key a.code.size field }
    have hnext : next.code.size = a.code.size + (1 + opcode.form.width) := by
      rw [Image.size_append, length_maskBytes, List.length_cons, length_littleEndian,
        Nat.add_comm 1]
    obtain ⟨listing, b, bytes, hemit, hcode, hlists, hlays⟩ :=
      ih (a := next) fun line hline => h line (List.mem_cons_of_mem _ hline)
    have hemitted : a.emitAll (line :: rest) =
        .ok (Decoded.placed ⟨opcode, line.operand⟩ a.position :: listing, b) := by
      rw [emitAll, emit_eq hopcode hword, Assembler.opcode, hopcode]
      change (next.emitAll rest >>= fun emitted => _) = _
      rw [hemit]
      rfl
    have happended : b.code = a.code ++ (maskBytes a.key a.code.size field ++ bytes) :=
      hcode.trans (Image.append_append _ _ _)
    refine ⟨_, b, _, hemitted, happended, .cons ⟨hopcode, rfl⟩ hlists, ?_⟩
    intro hsize
    have hle : next.code.size ≤ b.code.size := by
      rw [hcode, Image.size_append next.code bytes]
      exact Nat.le_add_right _ _
    have hstands : Image.Stands b.code a.isa a.key a.code.size
        (Decoded.placed ⟨opcode, line.operand⟩ a.position).kept := by
      have hspells := (Image.spells_append a.code a.key field).append bytes
      rw [← hcode] at hspells
      exact Image.stands_of_spells hopcode hword hspells (by omega)
    have hrest := hlays hsize
    rw [hnext] at hrest
    exact .cons hstands hrest

end Assembler

end StackLift
