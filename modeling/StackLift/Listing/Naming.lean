import StackLift.Graph.Slot
import StackLift.Listing.Forest
import StackLift.Listing.Variable

/-!
The variables of a graph. Stored producers that meet in a slot share a variable, which is named
after the first slot that reads one of them and has the kind of its input.
-/

namespace StackLift

/-- The stored producers that a slot may read, ascending. -/
def Slot.storedProducers (slot : Slot) (stored : OffsetSet) : List UInt32 :=
  slot.input.sources.toList.filter (· ∈ stored)

/-- The classes of stored producers: those that meet in a slot are joined. -/
def joinProducers (slots : List Slot) (stored : OffsetSet) : Forest :=
  slots.foldl (fun forest slot => forest.unionAll (slot.storedProducers stored)) .empty

/-- A variable for the class of stored producers with the given root. -/
structure Introduction where
  name : String
  kind : ValueKind
  root : UInt32
  producers : List UInt32
deriving DecidableEq

/-- The name of a variable that is first read by a slot. -/
def Slot.variableName (slot : Slot) : String :=
  "v_" ++ hexPadded 4 slot.reader.offset.toNat ++ "_" ++ Nat.repr slot.index

/-- The introductions that slots call for, one for each class that is not yet named. -/
def introductions (forest : Forest) (stored : OffsetSet) :
    List Slot → OffsetSet → List Introduction
  | [], _ => []
  | slot :: rest, named =>
    match slot.storedProducers stored with
    | [] => introductions forest stored rest named
    | first :: others =>
      let root := forest.root first
      if root ∈ named then introductions forest stored rest named
      else ⟨slot.variableName, slot.input.kind, root, first :: others⟩ ::
        introductions forest stored rest (named.insert root)

/-- Variables, and the index of the one that each class of stored producers is bound to. -/
structure Naming where
  stored : OffsetSet
  forest : Forest
  classes : OffsetMap Nat
  table : VariableTable

namespace Naming

def introduce (naming : Naming) (introduction : Introduction) : Naming :=
  let (index, table) := naming.table.insert introduction.name introduction.kind
  { naming with classes := naming.classes.insert introduction.root index, table := table }

/-- The variable that holds what is produced at an offset. -/
def holder? (naming : Naming) (producer : UInt32) : Option Nat :=
  if producer ∈ naming.stored then naming.classes.get? (naming.forest.root producer) else none

/-- The variable that a slot with the given input reads. -/
def variableRead? (naming : Naming) (input : Provenance) : Option Nat :=
  input.sources.toList.findSome? naming.holder?

end Naming

def Graph.introductions (graph : Graph) (stored : OffsetSet) : List Introduction :=
  let slots := graph.slots
  StackLift.introductions (joinProducers slots stored) stored slots .empty

/-- Names the stored producers of a graph, behind the registers. -/
def Graph.naming (graph : Graph) (stored : OffsetSet) : Naming :=
  (graph.introductions stored).foldl Naming.introduce
    ⟨stored, joinProducers graph.slots stored, .empty, .registers⟩

end StackLift
