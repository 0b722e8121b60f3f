namespace StackLift.Code

@[match_pattern] abbrev nop : UInt8 := 0x00
@[match_pattern] abbrev pushRegisterObject : UInt8 := 0x01
@[match_pattern] abbrev pushRegisterDword : UInt8 := 0x02
@[match_pattern] abbrev pushRegisterQword : UInt8 := 0x03
@[match_pattern] abbrev pushDword : UInt8 := 0x04
@[match_pattern] abbrev pushQword : UInt8 := 0x05
@[match_pattern] abbrev pop : UInt8 := 0x06
@[match_pattern] abbrev addDword : UInt8 := 0x10
@[match_pattern] abbrev addQword : UInt8 := 0x11
@[match_pattern] abbrev subDword : UInt8 := 0x12
@[match_pattern] abbrev mulDword : UInt8 := 0x13
@[match_pattern] abbrev xorDword : UInt8 := 0x14
@[match_pattern] abbrev norDword : UInt8 := 0x15
@[match_pattern] abbrev shlDword : UInt8 := 0x16
@[match_pattern] abbrev shrDword : UInt8 := 0x17
@[match_pattern] abbrev loadDword : UInt8 := 0x20
@[match_pattern] abbrev storeDword : UInt8 := 0x21
@[match_pattern] abbrev jump : UInt8 := 0x30
@[match_pattern] abbrev jumpIfZero : UInt8 := 0x31
@[match_pattern] abbrev jumpIfNotZero : UInt8 := 0x32
@[match_pattern] abbrev call : UInt8 := 0x33
@[match_pattern] abbrev ret : UInt8 := 0x34
@[match_pattern] abbrev callService : UInt8 := 0x40

end StackLift.Code
