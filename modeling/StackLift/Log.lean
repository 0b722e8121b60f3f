import StackLift.Fault
import StackLift.Instruction
import StackLift.InstructionSet

namespace StackLift

inductive Severity where
  | debug | info | warning | error
deriving DecidableEq

namespace Severity

def name : Severity → String
  | debug => "Debug"
  | info => "Info"
  | warning => "Warning"
  | error => "Error"

/-- The level under which a trace files a record. -/
def traceLevel : Severity → String
  | debug => "DEBUG"
  | info => "INFO"
  | warning => "WARN"
  | error => "ERROR"

end Severity

inductive Sink where
  | discard | trace | record
deriving DecidableEq

/-- The label under which a sink files records of a severity, if it keeps them. -/
def Sink.label? : Sink → Severity → Option String
  | discard, _ => none
  | trace, severity => some severity.traceLevel
  | record, severity => some severity.name

/-- The records that a sink keeps, with their labels. -/
def Sink.keep (sink : Sink) (records : List (Severity × String)) : List (String × String) :=
  records.filterMap fun record => (sink.label? record.1).map (·, record.2)

inductive Event where
  | entered (offset key : UInt32)
  | decoded (instruction : Instruction)
  | frameChanged (offset : UInt32)
  | callResolved (offset : UInt32) (signature : Signature)
  | targetResolved (offset target : UInt32)
  | targetGained (offset target : UInt32)
  | failed (fault : Fault)
  | discovered (instructions : Nat)
  | variableIntroduced (name : String) (producers : List UInt32)
  | built (statementCount variableCount : Nat) (start : UInt32)

namespace Event

def severity : Event → Severity
  | entered .. | targetResolved .. | discovered .. | built .. => .info
  | decoded .. | frameChanged .. | callResolved .. | variableIntroduced .. => .debug
  | targetGained .. => .warning
  | failed .. => .error

def message : Event → String
  | entered offset key =>
    "disassembling export at " ++ offsetText offset ++ " (key " ++ hexPrefixed 10 key.toNat ++ ")"
  | decoded i => offsetText i.offset ++ ": " ++ i.opcode.mnemonic ++ " " ++ i.operand.text
  | frameChanged offset => "state at " ++ offsetText offset ++ " changed, propagating"
  | callResolved offset signature =>
    offsetText offset ++ " calls " ++ signature.name ++
      " (" ++ Nat.repr signature.arguments.toNat ++ " arguments)"
  | targetResolved offset target => offsetText offset ++ " jumps to " ++ offsetText target
  | targetGained offset target =>
    offsetText offset ++ " gained jump target " ++ offsetText target ++ " after a merge"
  | failed fault => fault.message
  | discovered instructions => "discovered " ++ Nat.repr instructions ++ " instructions"
  | variableIntroduced name producers =>
    "introducing " ++ name ++ " for [" ++
      String.intercalate ", " (producers.map fun producer => Nat.repr producer.toNat) ++ "]"
  | built statementCount variableCount start =>
    "built " ++ Nat.repr statementCount ++ " statements and " ++ Nat.repr variableCount ++
      " variables from " ++ offsetText start

def toRecord (event : Event) : Severity × String :=
  (event.severity, event.message)

end Event

end StackLift
