namespace StackLift

/-- The digits of `n`, at least `width` of them. -/
def hexPadded (width n : Nat) : String :=
  String.ofList ((Nat.toDigits 16 n).leftpad width '0')

/-- The digits of `n` behind `0x`, at least `width` characters together. -/
def hexPrefixed (width n : Nat) : String :=
  "0x" ++ hexPadded (width - 2) n

end StackLift
