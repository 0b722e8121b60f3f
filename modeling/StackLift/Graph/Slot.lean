import StackLift.Frame.Effect
import StackLift.Graph

namespace StackLift

/-- A place where an instruction consumes an input. -/
structure Slot where
  reader : Node
  index : Nat
  input : Provenance
deriving DecidableEq

namespace Slot

/-- The input goes into a register: a popped one, or the instruction pointer. -/
def registerBound (slot : Slot) : Bool :=
  slot.reader.poppedRegister?.isSome ||
    (slot.reader.opcode.transfersControl && slot.index + 1 = slot.reader.inputs.length)

def joined (slot : Slot) : Bool :=
  1 < slot.input.sources.size

end Slot

namespace Graph

def slots (graph : Graph) : List Slot :=
  graph.nodes.flatMap fun node => node.inputs.mapIdx fun index input => ⟨node, index, input⟩

end Graph

def readsOf (slots : List Slot) (producer : UInt32) : List Slot :=
  slots.filter (producer ∈ ·.input.sources)

/-- An instruction that pushes what it finds in a register takes a snapshot of it. -/
def Instruction.snapshotsRegister (i : Instruction) : Bool :=
  match i.operand with
  | .register _ => i.opcode.pushes ≠ .none
  | _ => false

/-- What is read more than once, snapshots a register, is bound to a register, or meets other
producers is stored in a variable. -/
def Node.mustStore (node : Node) (reads : List Slot) : Bool :=
  1 < reads.length || node.snapshotsRegister ||
    reads.any fun slot => slot.registerBound || slot.joined

/-- What else is read is read once, and inlined there. -/
def Node.isInlined (node : Node) (reads : List Slot) : Bool :=
  !node.mustStore reads && reads.length = 1

/-- The offsets of the stored and of the inlined producers. -/
structure Placement where
  stored : OffsetSet
  inlined : OffsetSet
deriving DecidableEq

def Graph.placement (graph : Graph) : Placement :=
  let slots := graph.slots
  let offsetsWhere (p : Node → List Slot → Bool) :=
    OffsetSet.ofList ((graph.nodes.filter fun node => p node (readsOf slots node.offset)).map
      fun node => node.offset)
  ⟨offsetsWhere Node.mustStore, offsetsWhere Node.isInlined⟩

end StackLift
