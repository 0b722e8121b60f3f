import StackLift.Fault
import StackLift.Instruction
import StackLift.Opcode.Code

/-!
The concrete machine that replays the producers of a value. It runs register moves and arithmetic;
any other instruction is unsupported. An instruction that fails still leaves its mark: the
instruction pointer has moved on, and what it popped is gone.
-/

namespace StackLift

def lowDword (word : UInt64) : UInt64 :=
  word &&& 0xFFFFFFFF

inductive Arithmetic where
  | addDword | addQword | subDword | mulDword | xorDword | norDword | shlDword | shrDword
deriving DecidableEq

/-- The deeper operand stands on the left. Shifts take their amount modulo 32. -/
def Arithmetic.apply : Arithmetic → UInt64 → UInt64 → UInt64
  | .addDword, a, b => lowDword (a + b)
  | .addQword, a, b => a + b
  | .subDword, a, b => lowDword (a - b)
  | .mulDword, a, b => lowDword (a * b)
  | .xorDword, a, b => lowDword (a ^^^ b)
  | .norDword, a, b => lowDword (~~~(a ||| b))
  | .shlDword, a, b => (a.toUInt32 <<< b.toUInt32).toUInt64
  | .shrDword, a, b => (a.toUInt32 >>> b.toUInt32).toUInt64

inductive Action where
  | idle
  | pushRegister (r : Register)
  | pushLowRegister (r : Register)
  | push (word : UInt64)
  | popRegister (r : Register)
  | arithmetic (operation : Arithmetic)
deriving DecidableEq

/-- The action of an instruction, by its code and operand. -/
def Action.of? : UInt8 → Operand → Option Action
  | Code.nop, _ => some .idle
  | Code.pushRegisterObject, .register r => some (.pushRegister r)
  | Code.pushRegisterQword, .register r => some (.pushRegister r)
  | Code.pushRegisterDword, .register r => some (.pushLowRegister r)
  | Code.pushDword, .immediate value => some (.push (lowDword value))
  | Code.pushQword, .immediate value => some (.push value)
  | Code.pop, .register r => some (.popRegister r)
  | Code.addDword, _ => some (.arithmetic .addDword)
  | Code.addQword, _ => some (.arithmetic .addQword)
  | Code.subDword, _ => some (.arithmetic .subDword)
  | Code.mulDword, _ => some (.arithmetic .mulDword)
  | Code.xorDword, _ => some (.arithmetic .xorDword)
  | Code.norDword, _ => some (.arithmetic .norDword)
  | Code.shlDword, _ => some (.arithmetic .shlDword)
  | Code.shrDword, _ => some (.arithmetic .shrDword)
  | _, _ => none

/-- Registers and an operand stack, top first. -/
structure Machine where
  registers : RegisterFile UInt64
  stack : List UInt64
deriving DecidableEq

namespace Machine

/-- All registers zero but those preset, later presets over earlier ones. -/
def ofPresets (presets : List (Register × UInt64)) : Machine :=
  ⟨presets.foldl (fun file preset => file.set preset.1 preset.2) (.fill 0), []⟩

def push (m : Machine) (word : UInt64) : Machine :=
  { m with stack := word :: m.stack }

def setRegister (m : Machine) (r : Register) (word : UInt64) : Machine :=
  { m with registers := m.registers.set r word }

/-- Performs an action of the instruction at `offset`. -/
def perform (m : Machine) (offset : UInt32) : Action → Except FoldFault Unit × Machine
  | .idle => (.ok (), m)
  | .pushRegister r => (.ok (), m.push (m.registers.get r))
  | .pushLowRegister r => (.ok (), m.push (lowDword (m.registers.get r)))
  | .push word => (.ok (), m.push word)
  | .popRegister r =>
    match m.stack with
    | [] => (.error (.stackUnderflow offset), m)
    | word :: rest => (.ok (), { m with stack := rest }.setRegister r word)
  | .arithmetic operation =>
    match m.stack with
    | b :: a :: rest => (.ok (), { m with stack := operation.apply a b :: rest })
    | _ => (.error (.stackUnderflow offset), { m with stack := [] })

/-- Runs one instruction. The instruction pointer moves first. -/
def execute (m : Machine) (i : Instruction) : Except FoldFault Unit × Machine :=
  let m := m.setRegister .ip i.next.toUInt64
  match Action.of? i.opcode.code i.operand with
  | some action => m.perform i.offset action
  | none => (.error (.unsupported i.offset i.opcode.mnemonic), m)

def run (m : Machine) : List Instruction → Except FoldFault Machine
  | [] => .ok m
  | i :: rest =>
    match m.execute i with
    | (.ok (), m) => m.run rest
    | (.error fault, _) => .error fault

/-- The word left on top when instructions are replayed on an empty stack. -/
def fold (m : Machine) (instructions : List Instruction) : Except FoldFault UInt64 := do
  let final ← { m with stack := [] }.run instructions
  match final.stack with
  | word :: _ => return word
  | [] => throw .emptyStack

end Machine

end StackLift
