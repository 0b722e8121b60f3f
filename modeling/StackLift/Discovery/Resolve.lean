import StackLift.Graph.Producers
import StackLift.Image
import StackLift.Machine
import StackLift.Traced

namespace StackLift

structure Discovery where
  image : Image
  isa : InstructionSet
  machine : Machine

namespace Discovery

/-- The word that the producers of a value leave when they are replayed. -/
def fold (d : Discovery) (graph : Graph) (v : Provenance) : Except FoldFault UInt64 :=
  d.machine.fold (graph.producers v)

/-- The selector on top of the stack of a node. -/
def selector (d : Discovery) (graph : Graph) (node : Node) : Except Fault UInt64 :=
  match node.frame.top? with
  | none => .error (.stackUnderflow node.offset)
  | some cell =>
    match d.fold graph cell with
    | .error cause => .error (.unresolvedSelector node.offset cause)
    | .ok selector => .ok selector

def service (d : Discovery) (offset : UInt32) (selector : UInt64) : Except Fault Call :=
  match d.isa.signature? selector with
  | none => .error (.unknownCall offset selector)
  | some signature => .ok ⟨selector, signature⟩

/-- The call of an instruction, if its effect depends on one. -/
def resolveCall? (d : Discovery) (graph : Graph) (node : Node) : Traced (Option Call) :=
  if node.opcode.variableArity then
    if node.opcode.pops = .variable then do
      let selector ← .ofExcept (d.selector graph node)
      let call ← .ofExcept (d.service node.offset selector)
      Traced.report (.callResolved node.offset call.signature)
      return some call
    else .ofExcept (.error (.unsupportedStackEffect node.offset))
  else return none

/-- The target that a control transfer takes from its last input. -/
def target (d : Discovery) (graph : Graph) (node : Node) : Except Fault UInt32 :=
  match node.inputs.getLast? with
  | none => .error (.unresolvedTarget node.offset .emptyStack)
  | some input =>
    match d.fold graph input with
    | .error cause => .error (.unresolvedTarget node.offset cause)
    | .ok word =>
      if word.toNat < UInt32.size then .ok word.toUInt32
      else .error (.unresolvedTarget node.offset (.outOfRange word))

/-- Adds a target to what is known about the instruction at `offset`, and reports it if it is
new. -/
def gainTarget (offset target : UInt32) (known : Inferred) : Traced Inferred :=
  match known with
  | .targets targets =>
    if target ∈ targets then return known
    else do
      Traced.report (.targetGained offset target)
      return .targets (targets.insert target)
  | _ => do
    Traced.report (.targetResolved offset target)
    return .targets (.singleton target)

/-- What is known about an instruction after its target is resolved, if it transfers control. -/
def resolveTarget (d : Discovery) (graph : Graph) (node : Node) : Traced Inferred :=
  if node.opcode.transfersControl then do
    let target ← .ofExcept (d.target graph node)
    gainTarget node.offset target node.inferred
  else return node.inferred

end Discovery

end StackLift
