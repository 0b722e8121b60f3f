import StackLift.Allocation
import StackLift.Frame
import StackLift.Instruction
import StackLift.InstructionSet

/-!
The effect of an instruction on a frame. It binds the instruction pointer, pops, moves what a
register pop took into its register, and pushes: a register's known provenance is passed on,
anything else is new and produced here.
-/

namespace StackLift

/-- How many cells are popped, given the signature of the service that is called, if any. A service
also consumes its selector. -/
def Pops.count? (pops : Pops) (signature : Option Signature)
    (overflow : Overflow := .panics) : Option Nat :=
  match pops, signature with
  | .none, _ => some 0
  | .one, _ => some 1
  | .two, _ => some 2
  | .variable, some signature => some (overflow.succ signature.arguments)
  | .variable, .none => .none

/-- The kind of the cell that is pushed, if any, given the signature of the service that is
called. -/
def Pushes.kind? : Pushes → ValueKind → Option Signature → Option (Option ValueKind)
  | .none, _, _ => some .none
  | .one, kind, _ => some (some kind)
  | .variable, _, some signature => some signature.returns
  | .variable, _, .none => .none

def Instruction.poppedRegister? (i : Instruction) : Option Register :=
  match i.opcode.pops, i.operand with
  | .one, .register r => some r
  | _, _ => none

/-- The bytes that a cell takes up in a list: an ordered set of sources is three words, and the kind
brings a value to four. -/
def Provenance.byteSize : Nat :=
  32

/-- Whether room can be made for the cells that a service consumes. -/
abbrev Signature.HasRoom (signature : Signature) (overflow : Overflow := .panics) : Prop :=
  Reservable (overflow.succ signature.arguments) Provenance.byteSize

/-- The popped cells, deepest first, and the frame behind the instruction. -/
structure Effect where
  popped : List Provenance
  frame : Frame

namespace Frame

def take? (f : Frame) (count : Nat) : Option (List Provenance × Frame) :=
  if count ≤ f.depth then
    some ((f.stack.take count).reverse, { f with stack := f.stack.drop count })
  else none

/-- What an instruction pushes: the known provenance of its register, else a value of its own. -/
def pushed (f : Frame) (i : Instruction) (kind : ValueKind) : Provenance :=
  match i.operand with
  | .register r =>
    if (f.registers.get r).isEntry then .producedBy i.offset kind else f.registers.get r
  | _ => .producedBy i.offset kind

/-- Moves what a register pop took into its register. -/
def bindPopped (f : Frame) (i : Instruction) (popped : List Provenance) : Frame :=
  match i.poppedRegister?, popped with
  | some r, v :: _ => f.setRegister r v
  | _, _ => f

/-- The effect of an instruction that calls a service of the given signature, if any. Room for the
cells is made before they are popped. -/
def effect (f : Frame) (i : Instruction) (signature : Option Signature)
    (overflow : Overflow := .panics) : Except Fault Effect :=
  match i.opcode.pops.count? signature overflow with
  | none => .error (.unsupportedStackEffect i.offset)
  | some count => do
    reserve count Provenance.byteSize
    match (f.setRegister .ip (.producedBy i.offset .dword)).take? count with
    | none => .error (.stackUnderflow i.offset)
    | some (popped, rest) =>
      let bound := rest.bindPopped i popped
      match i.opcode.pushes.kind? i.opcode.kind signature with
      | none => .error (.unsupportedStackEffect i.offset)
      | some none => .ok ⟨popped, bound⟩
      | some (some kind) => .ok ⟨popped, bound.push (bound.pushed i kind)⟩

end Frame

end StackLift
