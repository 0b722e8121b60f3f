import StackLift.Listing.Variable
import StackLift.InstructionSet

namespace StackLift

/-- An instruction or a service call applied to its arguments, or a read of a variable. -/
inductive Expression where
  | instruction (offset : UInt32) (opcode : Opcode) (operand : Operand)
      (arguments : List Expression)
  | call (offset : UInt32) (opcode : Opcode) (call : Call) (arguments : List Expression)
  | read (index : Nat) (site : Site)

/-- An expression, and the index of the variable that it is assigned to, if any. -/
structure Statement where
  target : Option Nat
  expression : Expression

namespace Expression

/-- The offset of the instruction at the root. -/
def offset? : Expression → Option UInt32
  | .instruction offset .. => some offset
  | .call offset .. => some offset
  | .read .. => none

/-- What stands in front of the printed statement: the offset and mnemonic at the root. -/
def tag : Expression → String
  | .instruction offset opcode .. => hexPadded 4 offset.toNat ++ "/" ++ opcode.mnemonic
  | .call offset opcode .. => hexPadded 4 offset.toNat ++ "/" ++ opcode.mnemonic
  | .read .. => "----"

mutual

/-- The variables that an expression reads, and where, in the order of the arguments. -/
def reads : Expression → List (Nat × Site)
  | .instruction _ _ _ arguments => readsOfAll arguments
  | .call _ _ _ arguments => readsOfAll arguments
  | .read index site => [(index, site)]

def readsOfAll : List Expression → List (Nat × Site)
  | [] => []
  | expression :: rest => reads expression ++ readsOfAll rest

end

mutual

def text (table : VariableTable) : Expression → String
  | .instruction _ opcode operand arguments =>
    let texts := textsOfAll table arguments
    opcode.mnemonic ++ "(" ++
      ",".intercalate (if operand = .none then texts else operand.text :: texts) ++ ")"
  | .call _ opcode service arguments =>
    opcode.mnemonic ++ "." ++ service.signature.name ++ "(" ++
      ",".intercalate (textsOfAll table arguments) ++ ")"
  | .read index _ =>
    match table.get? index with
    | some v => v.name
    | none => "<var " ++ Nat.repr index ++ ">"

def textsOfAll (table : VariableTable) : List Expression → List String
  | [] => []
  | expression :: rest => text table expression :: textsOfAll table rest

end

end Expression

namespace Statement

/-- The printed statement on a line of its own. -/
def line (table : VariableTable) (statement : Statement) : String :=
  let code := statement.expression.text table ++ ";\n"
  let tag := "/* " ++ statement.expression.tag ++ " */ "
  match statement.target with
  | none => tag ++ code
  | some index => tag ++ ((table.get? index).elim "?" Variable.name) ++ "=" ++ code

end Statement

structure Listing where
  statements : List Statement
  table : VariableTable

namespace Listing

def text (listing : Listing) : String :=
  String.join (listing.statements.map (Statement.line listing.table))

end Listing

end StackLift
