import StackLift.Proofs.Calls
import StackLift.Proofs.Reading

namespace StackLift

namespace Discovery

variable {d : Discovery} {exports more : List Export} {graph next final : Graph} {frame : Frame}
  {frames : List Frame}

end Discovery

end StackLift
