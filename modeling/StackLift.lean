import StackLift.Discovery
import StackLift.Image.Assembler
import StackLift.InstructionSet.Reference
import StackLift.Listing.Build
import StackLift.Proofs.Definitions
import StackLift.Proofs.Editing
import StackLift.Proofs.Exports
import StackLift.Proofs.Folding
import StackLift.Proofs.Interchange
import StackLift.Proofs.Placing
import StackLift.Proofs.Producers
import StackLift.Proofs.Reachable
import StackLift.Proofs.Selectors
import StackLift.Proofs.Settled
import StackLift.Proofs.Recording
import StackLift.Proofs.Feeding
import StackLift.Proofs.Components
import StackLift.Proofs.Postfix
import StackLift.Proofs.Canonical
import StackLift.Proofs.Merging
import StackLift.Proofs.Readers
import StackLift.Proofs.Preorder
import StackLift.Proofs.LowHalves
import StackLift.Proofs.Starts
import StackLift.Proofs.Legible
import StackLift.Proofs.Messages
import StackLift.Proofs.Kinds
import StackLift.Proofs.Indexes
