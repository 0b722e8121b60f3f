import StackLift.Fault
import StackLift.Image.Mask
import StackLift.InstructionSet

/-!
Encoded code and its decoding. Every byte is masked by the key and its own position, and an operand
is one little-endian field behind its opcode. A decoding answers with its outcome and the position
where reading stopped.
-/

namespace StackLift

abbrev Image := Array UInt8

/-- The low bytes of a word, least significant first. -/
def littleEndian : Nat → UInt64 → List UInt8
  | 0, _ => []
  | n + 1, word => word.toUInt8 :: littleEndian n (word >>> 8)

def wordOfBytes : List UInt8 → UInt64
  | [] => 0
  | byte :: rest => byte.toUInt64 ||| (wordOfBytes rest <<< 8)

@[simp] theorem length_littleEndian (n : Nat) (word : UInt64) :
    (littleEndian n word).length = n := by
  induction n generalizing word with
  | zero => rfl
  | succ n ih => simp [littleEndian, ih]

namespace Operand

/-- The operand that a field of the given form holds. -/
def ofField? : OperandForm → UInt64 → Option Operand
  | .none, _ => some .none
  | .register, word => (Register.ofByte? word.toUInt8).map .register
  | .dword, word => some (.immediate word)
  | .qword, word => some (.immediate word)

/-- The field of the given form that holds the operand. -/
def field? : OperandForm → Operand → Option UInt64
  | .none, .none => some 0
  | .register, .register r => some r.toByte.toUInt64
  | .dword, .immediate value => some value
  | .qword, .immediate value => some value
  | _, _ => .none

end Operand

structure Decoded where
  opcode : Opcode
  operand : Operand
deriving DecidableEq

def Decoded.size (decoded : Decoded) : UInt32 :=
  UInt32.ofNat (1 + decoded.opcode.form.width)

namespace Image

/-- The byte at a position, without its mask. -/
def plainByte? (image : Image) (key : UInt32) (position : Nat) : Option UInt8 :=
  image[position]?.map (· ^^^ byteMask key position.toUInt32)

/-- Reads plain bytes and stops in front of the first that is missing. -/
def readBytes (image : Image) (key : UInt32) (position : Nat) :
    Nat → Except Fault (List UInt8) × Nat
  | 0 => (.ok [], position)
  | n + 1 =>
    match image.plainByte? key position with
    | none => (.error (.outOfBounds position.toUInt32), position)
    | some byte =>
      let rest := readBytes image key (position + 1) n
      (rest.1.map (byte :: ·), rest.2)

/-- The operand of an opcode decoded at `offset`, from the bytes of its field. -/
def operandOfBytes (offset : UInt32) (form : OperandForm) (bytes : List UInt8) :
    Except Fault Operand :=
  let word := wordOfBytes bytes
  match Operand.ofField? form word with
  | some operand => .ok operand
  | none => .error (.invalidRegister offset word.toUInt8)

/-- Decodes the instruction at a position. -/
def decode (image : Image) (isa : InstructionSet) (key : UInt32) (position : Nat) :
    Except Fault Decoded × Nat :=
  let offset := position.toUInt32
  match image.plainByte? key position with
  | none => (.error (.outOfBounds offset), position)
  | some code =>
    match isa.opcode? code with
    | none => (.error (.unknownOpcode offset code), position + 1)
    | some opcode =>
      let field := image.readBytes key (position + 1) opcode.form.width
      (do return ⟨opcode, ← operandOfBytes offset opcode.form (← field.1)⟩, field.2)

end Image

end StackLift
