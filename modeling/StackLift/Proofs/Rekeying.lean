import StackLift.Proofs.Editing
import StackLift.Proofs.Keys

namespace StackLift

theorem byteMask_xor_byteMask (key other position : UInt32) :
    byteMask key position ^^^ byteMask other position = foldBytes key ^^^ foldBytes other := by
  rw [byteMask_eq, byteMask_eq other, UInt8.xor_comm (foldBytes other), UInt8.xor_assoc,
    ← UInt8.xor_assoc (byteMask 0 position), UInt8.xor_self, UInt8.zero_xor]

theorem byteMask_rekey (key other position : UInt32) :
    byteMask other position = byteMask key position ^^^ (foldBytes key ^^^ foldBytes other) := by
  rw [← byteMask_xor_byteMask key other position, ← UInt8.xor_assoc, UInt8.xor_self,
    UInt8.zero_xor]

def Edit.KeepsKey : Edit → Prop
  | .setKey _ => False
  | _ => True

/-- What differs in every byte of code between two keys. -/
def Image.shift (image : Image) (difference : UInt8) : Image :=
  image.map (· ^^^ difference)

section

variable {image : Image} {key other : UInt32} {bytes : List UInt8} {position : Nat}
  {difference : UInt8}

theorem maskBytes_rekey (key other : UInt32) (position : Nat) (bytes : List UInt8) :
    maskBytes other position bytes =
      (maskBytes key position bytes).map (· ^^^ (foldBytes key ^^^ foldBytes other)) := by
  induction bytes generalizing position with
  | nil => rfl
  | cons byte rest ih =>
    rw [maskBytes, maskBytes, List.map_cons, ih, byteMask_rekey key other, UInt8.xor_assoc]

@[simp] theorem Image.size_shift (image : Image) (difference : UInt8) :
    (image.shift difference).size = image.size :=
  Array.size_map

theorem Image.getElem?_shift (image : Image) (difference : UInt8) (position : Nat) :
    (image.shift difference)[position]? = image[position]?.map (· ^^^ difference) :=
  Array.getElem?_map

theorem Image.shift_zero (image : Image) : image.shift 0 = image := by
  rw [shift]
  simp

theorem Image.shift_append (image : Image) (bytes : List UInt8) (difference : UInt8) :
    shift (image ++ bytes) difference = image.shift difference ++ bytes.map (· ^^^ difference) := by
  apply Array.toList_inj.1
  simp [shift]

theorem overwrite_shift (image : Image) (position : Nat) (bytes : List UInt8)
    (difference : UInt8) :
    overwrite (image.shift difference) position (bytes.map (· ^^^ difference)) =
      (overwrite image position bytes).shift difference := by
  induction bytes generalizing image position with
  | nil => rfl
  | cons byte rest ih =>
    rw [List.map_cons, overwrite, overwrite, ← ih]
    congr 1
    exact (Array.map_setIfInBounds ..).symm

theorem Image.plainByte?_shift (image : Image) (key other : UInt32) (position : Nat) :
    (image.shift (foldBytes key ^^^ foldBytes other)).plainByte? other position =
      image.plainByte? key position := by
  rw [plainByte?, plainByte?, getElem?_shift, Option.map_map]
  congr 1
  funext byte
  rw [Function.comp_apply, byteMask_rekey key other, UInt8.xor_assoc,
    UInt8.xor_comm (byteMask key _), ← UInt8.xor_assoc (_ ^^^ _), UInt8.xor_self, UInt8.zero_xor]

end

namespace Assembler

/-- Makes an edit, or leaves all as it is. The answer to an emission is its offset. -/
def make (a : Assembler) : Edit → Except Fault (Option UInt32) × Assembler
  | .emit code operand =>
    match a.emit code operand with
    | .ok (offset, b) => (.ok (some offset), b)
    | .error fault => (.error fault, a)
  | .patch offset operand =>
    match a.patch offset operand with
    | .ok b => (.ok none, b)
    | .error fault => (.error fault, a)
  | .setKey key => (.ok none, { a with key := key })

def makeAll (a : Assembler) : List Edit → List (Except Fault (Option UInt32)) × Assembler
  | [] => ([], a)
  | e :: rest =>
    let made := (a.make e).2.makeAll rest
    ((a.make e).1 :: made.1, made.2)

def rekey (a : Assembler) (key : UInt32) : Assembler :=
  { a with key := key, code := a.code.shift (foldBytes a.key ^^^ foldBytes key) }

variable {a : Assembler} {key : UInt32}

theorem rekey_start (isa : InstructionSet) (key other : UInt32) :
    (start isa key).rekey other = start isa other := by
  rw [rekey, start, Image.shift, Array.map_empty, start]

theorem emit_rekey (a : Assembler) (key : UInt32) (code : UInt8) (operand : Operand) :
    (a.rekey key).emit code operand =
      (a.emit code operand).map fun emitted => (emitted.1, emitted.2.rekey key) := by
  have hposition : (a.rekey key).position = a.position :=
    congrArg Nat.toUInt32 (Image.size_shift ..)
  rw [emit, emit, hposition]
  change (a.opcode a.position code >>= fun opcode => _) = _
  cases a.opcode a.position code with
  | error fault => rfl
  | ok opcode =>
    change (encodeOperand a.position opcode operand >>= fun bytes => _) =
      (encodeOperand a.position opcode operand >>= fun bytes => _).map _
    cases encodeOperand a.position opcode operand with
    | error fault => rfl
    | ok bytes =>
      refine congrArg (fun code => Except.ok (a.position, Assembler.mk a.isa key code)) ?_
      rw [rekey, Image.size_shift, maskBytes_rekey a.key key, ← Image.shift_append]

theorem patch_rekey (a : Assembler) (key : UInt32) (offset : UInt32) (operand : Operand) :
    (a.rekey key).patch offset operand = (a.patch offset operand).map (·.rekey key) := by
  have hplain : (a.rekey key).code.plainByte? (a.rekey key).key offset.toNat =
      a.code.plainByte? a.key offset.toNat :=
    a.code.plainByte?_shift a.key key offset.toNat
  rw [patch, patch, hplain]
  cases a.code.plainByte? a.key offset.toNat with
  | none => rfl
  | some code =>
    change (a.opcode offset code >>= fun opcode => _) =
      (a.opcode offset code >>= fun opcode => _).map _
    cases a.opcode offset code with
    | error fault => rfl
    | ok opcode =>
      change (encodeOperand offset opcode operand >>= fun bytes => _) =
        (encodeOperand offset opcode operand >>= fun bytes => _).map _
      cases encodeOperand offset opcode operand with
      | error fault => rfl
      | ok bytes =>
        change (if offset.toNat + 1 + bytes.length > (a.code.shift _).size then _ else _) =
          (if offset.toNat + 1 + bytes.length > a.code.size then _ else _ : Except Fault _).map _
        rw [Image.size_shift]
        split
        · rfl
        · refine congrArg (fun code => Except.ok (Assembler.mk a.isa key code)) ?_
          rw [rekey, maskBytes_rekey a.key key, overwrite_shift]

theorem make_rekey (a : Assembler) (key : UInt32) {e : Edit} (h : e.KeepsKey) :
    (a.rekey key).make e = ((a.make e).1, (a.make e).2.rekey key) := by
  cases e with
  | emit code operand =>
    rw [make, make, emit_rekey]
    cases a.emit code operand <;> rfl
  | patch offset operand =>
    rw [make, make, patch_rekey]
    cases a.patch offset operand <;> rfl
  | setKey => exact h.elim

/-- Edits that keep the key are answered alike under every key, and leave codes that differ by the
same byte everywhere. -/
theorem makeAll_rekey (a : Assembler) (key : UInt32) {edits : List Edit}
    (h : ∀ e ∈ edits, e.KeepsKey) :
    (a.rekey key).makeAll edits = ((a.makeAll edits).1, (a.makeAll edits).2.rekey key) := by
  induction edits generalizing a with
  | nil => rfl
  | cons e rest ih =>
    have hmake := a.make_rekey key (h e List.mem_cons_self)
    rw [makeAll, makeAll, hmake, ih _ fun e he => h e (List.mem_cons_of_mem _ he)]

theorem key_make (a : Assembler) {e : Edit} (h : e.KeepsKey) : (a.make e).2.key = a.key := by
  cases e with
  | emit code operand =>
    rw [make]
    split
    · next hemit =>
      obtain ⟨_, _, _, _, _, rfl⟩ := of_emit_eq_ok hemit
      rfl
    · rfl
  | patch offset operand =>
    rw [make]
    split
    · next hpatch =>
      obtain ⟨_, _, _, _, _, _, _, rfl⟩ := of_patch_eq_ok hpatch
      rfl
    · rfl
  | setKey => exact h.elim

theorem key_makeAll (a : Assembler) {edits : List Edit} (h : ∀ e ∈ edits, e.KeepsKey) :
    (a.makeAll edits).2.key = a.key := by
  induction edits generalizing a with
  | nil => rfl
  | cons e rest ih =>
    rw [makeAll, ih _ fun e he => h e (List.mem_cons_of_mem _ he)]
    exact a.key_make (h e List.mem_cons_self)

theorem makeAll_start (isa : InstructionSet) (key other : UInt32) {edits : List Edit}
    (h : ∀ e ∈ edits, e.KeepsKey) :
    ((start isa other).makeAll edits).1 = ((start isa key).makeAll edits).1 ∧
      ((start isa other).makeAll edits).2.code =
        ((start isa key).makeAll edits).2.code.shift (foldBytes key ^^^ foldBytes other) := by
  have hmade := (start isa key).makeAll_rekey other h
  rw [rekey_start] at hmade
  rw [hmade, rekey, key_makeAll _ h]
  exact ⟨rfl, rfl⟩

end Assembler

end StackLift
