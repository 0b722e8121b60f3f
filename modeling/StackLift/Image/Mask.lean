namespace StackLift

/-- The exclusive or of the four bytes of a word. -/
def foldBytes (word : UInt32) : UInt8 :=
  (word ^^^ (word >>> 8) ^^^ (word >>> 16) ^^^ (word >>> 24)).toUInt8

/-- The mask of the byte at a position, for code encoded under a key. -/
def byteMask (key position : UInt32) : UInt8 :=
  foldBytes (key ^^^ (position * 0x9E3779B9))

theorem xor_shiftRight (a b c : UInt32) : (a ^^^ b) >>> c = (a >>> c) ^^^ (b >>> c) := by
  apply UInt32.toBitVec_inj.1
  simp [BitVec.ushiftRight_xor_distrib]

theorem foldBytes_xor (a b : UInt32) : foldBytes (a ^^^ b) = foldBytes a ^^^ foldBytes b := by
  simp only [foldBytes, xor_shiftRight, UInt32.toUInt8_xor]
  ac_rfl

theorem byteMask_eq (key position : UInt32) :
    byteMask key position = foldBytes key ^^^ byteMask 0 position := by
  simp [byteMask, foldBytes_xor]

end StackLift
