import StackLift.Image

namespace StackLift

/-- The bytes of an operand behind its opcode, for an instruction at `offset`. -/
def encodeOperand (offset : UInt32) (opcode : Opcode) (operand : Operand) :
    Except Fault (List UInt8) :=
  match operand.field? opcode.form with
  | some word => .ok (littleEndian opcode.form.width word)
  | none => .error (.operandMismatch offset)

/-- Masks bytes that stand at successive positions. -/
def maskBytes (key : UInt32) : Nat → List UInt8 → List UInt8
  | _, [] => []
  | position, byte :: rest =>
    (byte ^^^ byteMask key position.toUInt32) :: maskBytes key (position + 1) rest

/-- Replaces the bytes from a position on. -/
def overwrite (code : Image) : Nat → List UInt8 → Image
  | _, [] => code
  | position, byte :: rest => overwrite (code.setIfInBounds position byte) (position + 1) rest

/-- The code so far, and the key that further code is encoded under. -/
structure Assembler where
  isa : InstructionSet
  key : UInt32
  code : Image

namespace Assembler

def start (isa : InstructionSet) (key : UInt32) : Assembler :=
  ⟨isa, key, #[]⟩

def position (a : Assembler) : UInt32 :=
  a.code.size.toUInt32

/-- The opcode of a code, at the offset where it stands or will stand. -/
def opcode (a : Assembler) (offset : UInt32) (code : UInt8) : Except Fault Opcode :=
  match a.isa.opcode? code with
  | some opcode => .ok opcode
  | none => .error (.unknownOpcode offset code)

/-- Appends an instruction and gives its offset. -/
def emit (a : Assembler) (code : UInt8) (operand : Operand) :
    Except Fault (UInt32 × Assembler) := do
  let offset := a.position
  let opcode ← a.opcode offset code
  let bytes ← encodeOperand offset opcode operand
  return (offset, { a with code := a.code ++ maskBytes a.key a.code.size (code :: bytes) })

/-- Replaces the operand of the instruction at an offset, as read under the current key. -/
def patch (a : Assembler) (offset : UInt32) (operand : Operand) : Except Fault Assembler := do
  match a.code.plainByte? a.key offset.toNat with
  | none => throw (.outOfBounds offset)
  | some code =>
    let opcode ← a.opcode offset code
    let bytes ← encodeOperand offset opcode operand
    let field := offset.toNat + 1
    if field + bytes.length > a.code.size then
      throw (.outOfBounds offset)
    return { a with code := overwrite a.code field (maskBytes a.key field bytes) }

end Assembler

end StackLift
