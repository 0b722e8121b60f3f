import StackLift.Hexadecimal
import StackLift.Register

namespace StackLift

/-- The coarse kind of a value on the stack or in a register. -/
inductive ValueKind where
  | object | dword | qword
deriving DecidableEq

/-- Two different kinds agree on being some object only. -/
def ValueKind.join (a b : ValueKind) : ValueKind :=
  if a = b then a else .object

@[simp] theorem ValueKind.join_self (a : ValueKind) : a.join a = a := by
  simp [join]

theorem ValueKind.join_comm (a b : ValueKind) : a.join b = b.join a := by
  cases a <;> cases b <;> rfl

theorem ValueKind.join_assoc (a b c : ValueKind) : (a.join b).join c = a.join (b.join c) := by
  cases a <;> cases b <;> cases c <;> rfl

theorem ValueKind.join_eq_self_or (a b : ValueKind) : a.join b = a ∨ a.join b = .object := by
  rw [join]
  split <;> simp

/-- How control leaves an instruction. -/
inductive Flow where
  | next | jump | call | conditionalJump | leave
deriving DecidableEq

/-- How many cells an instruction pops. -/
inductive Pops where
  | none | one | two | variable
deriving DecidableEq

/-- How many cells an instruction pushes. -/
inductive Pushes where
  | none | one | variable
deriving DecidableEq

/-- What follows an opcode in the code. -/
inductive OperandForm where
  | none | register | dword | qword
deriving DecidableEq

/-- The number of bytes an operand takes. -/
def OperandForm.width : OperandForm → Nat
  | .none => 0
  | .register => 1
  | .dword => 4
  | .qword => 8

structure Opcode where
  code : UInt8
  mnemonic : String
  flow : Flow
  pops : Pops
  pushes : Pushes
  form : OperandForm
  kind : ValueKind
deriving DecidableEq

namespace Opcode

/-- The last cell that such an opcode pops is loaded into the instruction pointer. -/
def transfersControl (opcode : Opcode) : Bool :=
  match opcode.flow with
  | .jump | .call | .conditionalJump => true
  | .next | .leave => false

/-- The effect of such an opcode depends on the service that it calls. -/
def variableArity (opcode : Opcode) : Bool :=
  opcode.pops = .variable || opcode.pushes = .variable

end Opcode

inductive Operand where
  | none
  | register (r : Register)
  | immediate (value : UInt64)
deriving DecidableEq

/-- The printed operand, empty where there is none. -/
def Operand.text : Operand → String
  | .none => ""
  | .register r => r.name
  | .immediate value => hexPrefixed 0 value.toNat

end StackLift
