import StackLift.Opcode

namespace StackLift

structure Instruction where
  offset : UInt32
  opcode : Opcode
  operand : Operand
  size : UInt32
deriving DecidableEq

def Instruction.next (i : Instruction) : UInt32 :=
  i.offset + i.size

end StackLift
