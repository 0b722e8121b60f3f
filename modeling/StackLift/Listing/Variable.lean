import StackLift.Opcode

namespace StackLift

/-- An argument slot of the instruction at an offset. -/
structure Site where
  offset : UInt32
  slot : Nat
deriving DecidableEq

/-- By offset, then by slot. -/
def Site.before (a b : Site) : Bool :=
  a.offset < b.offset || (a.offset = b.offset && a.slot < b.slot)

/-- Puts a site at its place in an ascending list, unless it is there already. -/
def insertSite (site : Site) : List Site → List Site
  | [] => [site]
  | other :: rest =>
    if site.before other then site :: other :: rest
    else if site = other then other :: rest
    else other :: insertSite site rest

/-- The readers are the sites that read the variable, ascending. -/
structure Variable where
  name : String
  kind : ValueKind
  readers : List Site
deriving DecidableEq

structure VariableTable where
  toList : List Variable
deriving DecidableEq

namespace VariableTable

def empty : VariableTable :=
  ⟨[]⟩

def size (table : VariableTable) : Nat :=
  table.toList.length

def get? (table : VariableTable) (index : Nat) : Option Variable :=
  table.toList[index]?

def index? (table : VariableTable) (name : String) : Option Nat :=
  table.toList.findIdx? (·.name = name)

def byName? (table : VariableTable) (name : String) : Option Variable :=
  table.index? name >>= table.get?

/-- The index of a name, which is introduced if it is new. -/
def insert (table : VariableTable) (name : String) (kind : ValueKind) : Nat × VariableTable :=
  match table.index? name with
  | some index => (index, table)
  | none => (table.size, ⟨table.toList ++ [⟨name, kind, []⟩]⟩)

/-- Records that a site reads a variable. -/
def addReader (table : VariableTable) (index : Nat) (site : Site) : VariableTable :=
  ⟨table.toList.modify index fun v => { v with readers := insertSite site v.readers }⟩

def registers : VariableTable :=
  Register.all.foldl (fun table r => (table.insert r.name .object).2) empty

end VariableTable

end StackLift
