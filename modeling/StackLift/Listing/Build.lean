import StackLift.Allocation
import StackLift.Graph.Walk
import StackLift.Listing.Expression
import StackLift.Listing.Naming
import StackLift.Traced

/-!
Listings of graphs. The control flow is walked from a start; each instruction becomes a statement,
assigned to its variable if it has one, unless it is inlined into its only reader. A slot becomes a
read of the variable of its producers, or the expression of its inlined producer. What is read is
recorded in the table while the statements are built (`Outline.recordStatements`); the statements
themselves do not depend on the table (`Outline.statements`).
-/

namespace StackLift

/-- The bytes that an expression takes up in a list. The largest is a call, with an offset, an
opcode, a service and the list of its arguments, in twelve words. -/
def Expression.byteSize : Nat :=
  96

/-- How many arguments room is made for: a call has spent its selector. -/
def Node.argumentCount (node : Node) : Nat :=
  match node.call? with
  | some call => call.signature.arguments.toNat
  | none => node.inputs.length

/-- The inputs that an instruction takes as arguments. -/
def Node.argumentInputs (node : Node) : List Provenance :=
  node.inputs.take node.argumentCount

def Node.toExpression (node : Node) (arguments : List Expression) : Expression :=
  match node.call? with
  | some call => .call node.offset node.opcode call arguments
  | none => .instruction node.offset node.opcode node.operand arguments

/-- A graph with its inlined producers and its variables. -/
structure Outline where
  graph : Graph
  inlined : OffsetSet
  naming : Naming

namespace Outline

/-- The inlined producer that an input stands for. -/
def inlinedProducer? (o : Outline) (input : Provenance) : Option UInt32 :=
  match input.sources.toList with
  | [producer] => if producer ∈ o.inlined then some producer else none
  | _ => none

mutual

/-- The expression of an instruction, inside those that are being built at the offsets of `path`. -/
def expression (o : Outline) (path : OffsetSet) (node : Node) : Except Fault Expression :=
  if node.offset ∈ path then .error (.cyclicExpression node.offset)
  else do
    reserve node.argumentCount Expression.byteSize
    let arguments ← o.arguments (path.insert node.offset) node.offset 0 node.argumentInputs
    return node.toExpression arguments
termination_by (UInt32.size - path.size, 0)
decreasing_by exact .left _ _ (OffsetSet.room_insert_lt ‹_›)

/-- What stands at a site for its input: a read of a variable, or the inlined producer. -/
def argument (o : Outline) (path : OffsetSet) (site : Site) (input : Provenance) :
    Except Fault Expression :=
  match o.naming.variableRead? input with
  | some index => .ok (.read index site)
  | none =>
    match o.inlinedProducer? input with
    | none => .error (.unboundDependency site.offset site.slot)
    | some producer =>
      match o.graph.get? producer with
      | none => .error (.missingInstruction producer)
      | some node => o.expression path node
termination_by (UInt32.size - path.size, 1)
decreasing_by exact .right _ (by simp)

/-- The arguments of the instruction at an offset, from the given slot on. -/
def arguments (o : Outline) (path : OffsetSet) (offset : UInt32) (slot : Nat) :
    List Provenance → Except Fault (List Expression)
  | [] => .ok []
  | input :: rest => do
    let first ← o.argument path ⟨offset, slot⟩ input
    let others ← o.arguments path offset (slot + 1) rest
    return first :: others
termination_by inputs => (UInt32.size - path.size, inputs.length + 1)
decreasing_by
  · exact .right _ (by simp)
  · exact .right _ (by simp)

end

/-- The statements of the instructions at the given offsets, without those that are inlined. -/
def statements (o : Outline) : List UInt32 → Except Fault (List Statement)
  | [] => .ok []
  | offset :: rest =>
    match o.graph.get? offset with
    | none => .error (.missingInstruction offset)
    | some node =>
      if offset ∈ o.inlined then o.statements rest
      else do
        let expression ← o.expression .empty node
        let others ← o.statements rest
        return ⟨o.naming.holder? offset, expression⟩ :: others

end Outline

/-- Building that records, in a table of variables, where each of them is read. -/
abbrev Recorder (α : Type) :=
  StateT VariableTable (Except Fault) α

namespace Outline

mutual

/-- Builds the expression of an instruction and records its reads. -/
def recordExpression (o : Outline) (path : OffsetSet) (node : Node) : Recorder Expression :=
  if node.offset ∈ path then throw (.cyclicExpression node.offset)
  else do
    reserve node.argumentCount Expression.byteSize
    let arguments ←
      o.recordArguments (path.insert node.offset) node.offset 0 node.argumentInputs
    return node.toExpression arguments
termination_by (UInt32.size - path.size, 0)
decreasing_by exact .left _ _ (OffsetSet.room_insert_lt ‹_›)

def recordArgument (o : Outline) (path : OffsetSet) (site : Site) (input : Provenance) :
    Recorder Expression :=
  match o.naming.variableRead? input with
  | some index => do
    modify (·.addReader index site)
    return .read index site
  | none =>
    match o.inlinedProducer? input with
    | none => throw (.unboundDependency site.offset site.slot)
    | some producer =>
      match o.graph.get? producer with
      | none => throw (.missingInstruction producer)
      | some node => o.recordExpression path node
termination_by (UInt32.size - path.size, 1)
decreasing_by exact .right _ (by simp)

def recordArguments (o : Outline) (path : OffsetSet) (offset : UInt32) (slot : Nat) :
    List Provenance → Recorder (List Expression)
  | [] => return []
  | input :: rest => do
    let first ← o.recordArgument path ⟨offset, slot⟩ input
    let others ← o.recordArguments path offset (slot + 1) rest
    return first :: others
termination_by inputs => (UInt32.size - path.size, inputs.length + 1)
decreasing_by
  · exact .right _ (by simp)
  · exact .right _ (by simp)

end

/-- Builds the statements of the instructions at the given offsets, without those that are inlined,
and records their reads. -/
def recordStatements (o : Outline) : List UInt32 → Recorder (List Statement)
  | [] => return []
  | offset :: rest =>
    match o.graph.get? offset with
    | none => throw (.missingInstruction offset)
    | some node =>
      if offset ∈ o.inlined then o.recordStatements rest
      else do
        let expression ← o.recordExpression .empty node
        let others ← o.recordStatements rest
        return ⟨o.naming.holder? offset, expression⟩ :: others

end Outline

def Graph.outline (graph : Graph) : Outline :=
  let placement := graph.placement
  ⟨graph, placement.inlined, graph.naming placement.stored⟩

/-- The listing of what control flow reaches from `start`. -/
def Graph.listingFrom (graph : Graph) (start : UInt32) : Except Fault Listing := do
  let outline := graph.outline
  let (statements, table) ← (outline.recordStatements (graph.walk start)).run outline.naming.table
  return ⟨statements, table⟩

/-- Reports the variables of a graph, then builds its listing from `start` and reports its size. -/
def Graph.build (graph : Graph) (start : UInt32) : Traced Listing := do
  .reportAll ((graph.introductions graph.placement.stored).map fun introduction =>
    .variableIntroduced introduction.name introduction.producers)
  let listing ← .ofExcept (graph.listingFrom start)
  Traced.report (.built listing.statements.length listing.table.size start)
  return listing

end StackLift
