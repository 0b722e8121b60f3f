import StackLift.Hexadecimal

/-!
The failures of the analysis. Each names the offset it happened at, and `Fault.message` and
`FoldFault.message` hold their wording. The one that names no offset is a panic, which ends the
program where the others are reported and returned.
-/

namespace StackLift

/-- Why replaying the producers of a value gave no word. -/
inductive FoldFault where
  | emptyStack
  | stackUnderflow (offset : UInt32)
  | outOfRange (value : UInt64)
  | unsupported (offset : UInt32) (mnemonic : String)
deriving DecidableEq

inductive Fault where
  | outOfBounds (offset : UInt32)
  | unknownOpcode (offset : UInt32) (code : UInt8)
  | operandMismatch (offset : UInt32)
  | invalidRegister (offset : UInt32) (register : UInt8)
  | stackUnderflow (offset : UInt32)
  | stackMismatch (offset : UInt32) (expected found : Nat)
  | unresolvedTarget (offset : UInt32) (cause : FoldFault)
  | unresolvedSelector (offset : UInt32) (cause : FoldFault)
  | unknownCall (offset : UInt32) (selector : UInt64)
  | unsupportedStackEffect (offset : UInt32)
  | missingInstruction (offset : UInt32)
  | unboundDependency (offset : UInt32) (slot : Nat)
  | cyclicExpression (offset : UInt32)
  | capacityOverflow
deriving DecidableEq

/-- An offset in a message: four digits at least. -/
def offsetText (offset : UInt32) : String :=
  hexPrefixed 6 offset.toNat

def byteText (byte : UInt8) : String :=
  hexPrefixed 4 byte.toNat

/-- A word in a message, without leading zeros. -/
def wordText (word : UInt64) : String :=
  hexPrefixed 0 word.toNat

def FoldFault.message : FoldFault → String
  | .emptyStack => "nothing left on the stack"
  | .stackUnderflow offset => "stack underflow replaying " ++ offsetText offset
  | .outOfRange value => "folded value " ++ wordText value ++ " is not a code offset"
  | .unsupported offset mnemonic => mnemonic ++ " at " ++ offsetText offset ++ " cannot be folded"

def Fault.message : Fault → String
  | .outOfBounds offset => "read past the end of the image at " ++ offsetText offset
  | .unknownOpcode offset code =>
    "unknown opcode " ++ byteText code ++ " at " ++ offsetText offset
  | .operandMismatch offset => "operand does not fit the opcode encoded at " ++ offsetText offset
  | .invalidRegister offset register =>
    "invalid register " ++ byteText register ++ " at " ++ offsetText offset
  | .stackUnderflow offset => "stack underflow at " ++ offsetText offset
  | .stackMismatch offset expected found =>
    "stack depth mismatch at " ++ offsetText offset ++ ": expected " ++ Nat.repr expected ++
      ", found " ++ Nat.repr found
  | .unresolvedTarget offset _ => "unable to resolve jump target at " ++ offsetText offset
  | .unresolvedSelector offset _ => "unable to resolve call selector at " ++ offsetText offset
  | .unknownCall offset selector =>
    "no call signature for selector " ++ wordText selector ++ " at " ++ offsetText offset
  | .unsupportedStackEffect offset => "unsupported variable stack effect at " ++ offsetText offset
  | .missingInstruction offset => "no instruction at " ++ offsetText offset
  | .unboundDependency offset slot =>
    "dependency " ++ Nat.repr slot ++ " of " ++ offsetText offset ++ " has no producer"
  | .cyclicExpression offset => "cyclic expression through " ++ offsetText offset
  | .capacityOverflow => "capacity overflow"

end StackLift
