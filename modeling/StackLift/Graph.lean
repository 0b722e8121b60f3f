import StackLift.Frame
import StackLift.Instruction
import StackLift.InstructionSet
import StackLift.Offset.Map

/-!
Graphs of discovered instructions by offset. A node carries the frame it is reached with, what it
consumes, and what the discovery worked out about it; from these follow its successors. Two graphs
that hold the same node at every offset are equal (`Graph.ext_get?`).
-/

namespace StackLift

/-- What is known about an instruction beyond its encoding. -/
inductive Inferred where
  | nothing
  | targets (targets : OffsetSet)
  | call (call : Call)
deriving DecidableEq

/-- An instruction of a graph. Its inputs are the cells that it pops, deepest first. -/
structure Node extends Instruction where
  frame : Frame
  inputs : List Provenance
  inferred : Inferred
deriving DecidableEq

namespace Node

def fresh (i : Instruction) (frame : Frame) : Node :=
  ⟨i, frame, [], .nothing⟩

/-- The known targets of a control transfer, ascending. -/
def targets (node : Node) : List UInt32 :=
  match node.inferred with
  | .targets targets => targets.toList
  | _ => []

/-- The service that the instruction is known to call. -/
def call? (node : Node) : Option Call :=
  match node.inferred with
  | .call call => some call
  | _ => none

/-- Where control can go next: known targets first, then the code that follows. -/
def successors (node : Node) : List UInt32 :=
  match node.opcode.flow with
  | .next => [node.next]
  | .jump => node.targets
  | .call | .conditionalJump => node.targets ++ [node.next]
  | .leave => []

end Node

/-- Nodes by their offsets. -/
structure Graph where
  byOffset : OffsetMap Node
  offset_eq : ∀ offset node, byOffset.get? offset = some node → node.offset = offset

namespace Graph

def empty : Graph :=
  ⟨.empty, fun _ _ h => nomatch h⟩

def get? (graph : Graph) (offset : UInt32) : Option Node :=
  graph.byOffset.get? offset

def contains (graph : Graph) (offset : UInt32) : Bool :=
  (graph.get? offset).isSome

/-- Puts a node at its offset, over the one that is there. -/
def insert (graph : Graph) (node : Node) : Graph where
  byOffset := graph.byOffset.insert node.offset node
  offset_eq offset other h := by
    rw [OffsetMap.get?_insert] at h
    split at h
    · next heq => cases h; exact heq.symm
    · exact graph.offset_eq offset other h

def ofList (nodes : List Node) : Graph :=
  nodes.foldl insert empty

def nodes (graph : Graph) : List Node :=
  graph.byOffset.values

def offsets (graph : Graph) : List UInt32 :=
  graph.byOffset.keys

def size (graph : Graph) : Nat :=
  graph.byOffset.size

/-- How much the frames of the graph can still grow. -/
def room (graph : Graph) : Nat :=
  totalOf (fun node => node.frame.room) graph.nodes

theorem offset_of_get? {graph : Graph} {offset : UInt32} {node : Node}
    (h : graph.get? offset = some node) : node.offset = offset :=
  graph.offset_eq offset node h

@[simp] theorem get?_empty (offset : UInt32) : empty.get? offset = none :=
  rfl

theorem get?_insert (graph : Graph) (node : Node) (offset : UInt32) :
    (graph.insert node).get? offset =
      if offset = node.offset then some node else graph.get? offset :=
  OffsetMap.get?_insert ..

@[simp] theorem get?_insert_self (graph : Graph) (node : Node) :
    (graph.insert node).get? node.offset = some node := by
  simp [get?_insert]

theorem size_le (graph : Graph) : graph.size ≤ UInt32.size :=
  graph.byOffset.size_le

theorem size_insert_of_some {graph : Graph} (node : Node) {old : Node}
    (h : graph.get? node.offset = some old) : (graph.insert node).size = graph.size :=
  OffsetMap.size_insert_of_some node h

theorem size_insert_of_none {graph : Graph} (node : Node) (h : graph.get? node.offset = none) :
    (graph.insert node).size = graph.size + 1 :=
  OffsetMap.size_insert_of_none node h

theorem room_insert {graph : Graph} (node : Node) {old : Node}
    (h : graph.get? node.offset = some old) :
    (graph.insert node).room + old.frame.room = graph.room + node.frame.room :=
  OffsetMap.totalOf_values_insert node h fun node => node.frame.room

theorem ext_get? {g h : Graph} (eq : ∀ offset, g.get? offset = h.get? offset) : g = h := by
  obtain ⟨m, hm⟩ := g
  obtain ⟨n, hn⟩ := h
  have : m = n := OffsetMap.ext_get? eq
  subst this
  rfl

end Graph

end StackLift
