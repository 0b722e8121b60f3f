import StackLift.InstructionSet
import StackLift.Opcode.Code

namespace StackLift.InstructionSet.Reference

def pushRegister (code : UInt8) (mnemonic : String) (kind : ValueKind) : Opcode :=
  ⟨code, mnemonic, .next, .none, .one, .register, kind⟩

def pushImmediate (code : UInt8) (mnemonic : String) (form : OperandForm) (kind : ValueKind) :
    Opcode :=
  ⟨code, mnemonic, .next, .none, .one, form, kind⟩

def binary (code : UInt8) (mnemonic : String) (kind : ValueKind) : Opcode :=
  ⟨code, mnemonic, .next, .two, .one, .none, kind⟩

def transfer (code : UInt8) (mnemonic : String) (flow : Flow) (pops : Pops) : Opcode :=
  ⟨code, mnemonic, flow, pops, .none, .none, .dword⟩

def opcodes : List Opcode :=
  [ ⟨Code.nop, "NOP", .next, .none, .none, .none, .object⟩,
    pushRegister Code.pushRegisterObject "PUSHR_OBJECT" .object,
    pushRegister Code.pushRegisterDword "PUSHR_DWORD" .dword,
    pushRegister Code.pushRegisterQword "PUSHR_QWORD" .qword,
    pushImmediate Code.pushDword "PUSHI_DWORD" .dword .dword,
    pushImmediate Code.pushQword "PUSHI_QWORD" .qword .qword,
    ⟨Code.pop, "POP", .next, .one, .none, .register, .object⟩,
    binary Code.addDword "ADD_DWORD" .dword,
    binary Code.addQword "ADD_QWORD" .qword,
    binary Code.subDword "SUB_DWORD" .dword,
    binary Code.mulDword "MUL_DWORD" .dword,
    binary Code.xorDword "XOR_DWORD" .dword,
    binary Code.norDword "NOR_DWORD" .dword,
    binary Code.shlDword "SHL_DWORD" .dword,
    binary Code.shrDword "SHR_DWORD" .dword,
    ⟨Code.loadDword, "LIND_DWORD", .next, .one, .one, .none, .dword⟩,
    ⟨Code.storeDword, "SIND_DWORD", .next, .two, .none, .none, .object⟩,
    transfer Code.jump "JMP" .jump .one,
    transfer Code.jumpIfZero "JZ" .conditionalJump .two,
    transfer Code.jumpIfNotZero "JNZ" .conditionalJump .two,
    transfer Code.call "CALL" .call .one,
    ⟨Code.ret, "RET", .leave, .none, .none, .none, .object⟩,
    ⟨Code.callService, "VCALL", .next, .variable, .variable, .none, .object⟩ ]

def calls : List Call :=
  [ ⟨0, "exit", 0, none⟩,
    ⟨1, "box", 1, some .object⟩,
    ⟨2, "unbox", 1, some .qword⟩,
    ⟨3, "ecall", 2, some .object⟩ ]

end Reference

def reference : InstructionSet :=
  ⟨Reference.opcodes, Reference.calls, by decide, by decide⟩

end StackLift.InstructionSet
