import StackLift.Proofs.Decoding
import StackLift.Proofs.Editing

namespace StackLift

theorem littleEndian_wordOfBytes {bytes : List UInt8} (h : bytes.length ≤ 8) :
    littleEndian bytes.length (wordOfBytes bytes) = bytes := by
  induction bytes with
  | nil => rfl
  | cons byte rest ih =>
    rw [List.length_cons] at h
    have hshort : rest.length ≤ 8 := Nat.le_of_succ_le h
    have hpow : 256 ^ rest.length * 256 ≤ UInt64.size :=
      Nat.pow_le_pow_right (n := 256) (by decide) h
    have hlt := toNat_wordOfBytes_lt hshort
    have hword : (wordOfBytes (byte :: rest)).toNat = byte.toNat + 256 * (wordOfBytes rest).toNat :=
      toNat_wordOfBytes_cons (by omega)
    have hbyte := byte.toNat_lt
    have hfirst : (wordOfBytes (byte :: rest)).toUInt8 = byte := by
      apply UInt8.toNat_inj.1
      rw [UInt64.toNat_toUInt8, hword]
      omega
    have hrest : wordOfBytes (byte :: rest) >>> 8 = wordOfBytes rest := by
      apply UInt64.toNat_inj.1
      have hshift : (wordOfBytes (byte :: rest) >>> 8).toNat =
          (wordOfBytes (byte :: rest)).toNat / 256 := by
        simp [UInt64.toNat_shiftRight, Nat.shiftRight_eq_div_pow]
      rw [hshift, hword]
      omega
    rw [List.length_cons, littleEndian, hfirst, hrest, ih hshort]

theorem Operand.field?_of_ofField? {form : OperandForm} {bytes : List UInt8} {operand : Operand}
    (hlength : bytes.length = form.width)
    (h : ofField? form (wordOfBytes bytes) = some operand) :
    ∃ word, operand.field? form = some word ∧ littleEndian form.width word = bytes := by
  have hbytes : littleEndian form.width (wordOfBytes bytes) = bytes := by
    rw [← hlength]
    apply littleEndian_wordOfBytes
    rw [hlength]
    cases form <;> decide
  cases form with
  | none =>
    cases h
    exact ⟨0, rfl, (List.length_eq_zero_iff.1 hlength).symm⟩
  | register =>
    obtain ⟨byte, rfl⟩ := List.length_eq_one_iff.1 hlength
    obtain ⟨r, hr, rfl⟩ := Option.map_eq_some_iff.1 h
    have hbyte : (wordOfBytes [byte]).toUInt8 = byte := List.head_eq_of_cons_eq hbytes
    rw [hbyte] at hr
    refine ⟨byte.toUInt64, ?_, ?_⟩
    · rw [field?, Register.toByte_of_ofByte? hr]
    · rw [OperandForm.width, littleEndian, littleEndian, UInt8.toUInt8_toUInt64]
  | dword =>
    cases h
    exact ⟨_, rfl, hbytes⟩
  | qword =>
    cases h
    exact ⟨_, rfl, hbytes⟩

theorem maskBytes_congr (key : UInt32) {m n : Nat} (h : m.toUInt32 = n.toUInt32)
    (bytes : List UInt8) : maskBytes key m bytes = maskBytes key n bytes := by
  induction bytes generalizing m n with
  | nil => rfl
  | cons byte rest ih =>
    have hnext : (m + 1).toUInt32 = (n + 1).toUInt32 := by
      change UInt32.ofNat (m + 1) = UInt32.ofNat (n + 1)
      rw [UInt32.ofNat_add, UInt32.ofNat_add]
      exact congrArg (· + 1) h
    rw [maskBytes, maskBytes, h, ih hnext]

namespace Image

variable {image : Image} {isa : InstructionSet} {key : UInt32} {position : Nat}
  {bytes : List UInt8}

theorem plainByte?_eq_some_iff {byte : UInt8} : image.plainByte? key position = some byte ↔
    image[position]? = some (byte ^^^ byteMask key position.toUInt32) := by
  rw [plainByte?, Option.map_eq_some_iff]
  constructor
  · rintro ⟨masked, hmasked, rfl⟩
    rw [hmasked, UInt8.xor_assoc, UInt8.xor_self, UInt8.xor_zero]
  · intro h
    refine ⟨_, h, ?_⟩
    rw [UInt8.xor_assoc, UInt8.xor_self, UInt8.xor_zero]

theorem spells_iff_prefix : image.Spells key position bytes ↔
    maskBytes key position bytes <+: image.toList.drop position := by
  induction bytes generalizing position with
  | nil => exact ⟨fun _ => List.nil_prefix, fun _ => trivial⟩
  | cons byte rest ih =>
    rw [Spells, ih, maskBytes, plainByte?_eq_some_iff, ← Array.getElem?_toList]
    cases hdrop : image.toList.drop position with
    | nil =>
      have hnone : image.toList[position]? = none :=
        List.getElem?_eq_none (List.drop_eq_nil_iff.1 hdrop)
      simp [hnone]
    | cons first later =>
      have hfirst : image.toList[position]? = some first := by
        rw [← List.head?_drop, hdrop]
        rfl
      have hlater : image.toList.drop (position + 1) = later := by
        rw [← List.tail_drop, hdrop]
        rfl
      rw [hfirst, hlater, List.cons_prefix_cons, Option.some.injEq, eq_comm]

end Image

namespace Assembler

variable {a b : Assembler} {code : UInt8} {operand : Operand} {offset : UInt32}

theorem toUInt32_position (a : Assembler) : a.position.toNat.toUInt32 = a.code.size.toUInt32 :=
  UInt32.ofNat_toNat

/-- What decodes at the offset of an assembler, under its key, is what the assembler would emit. -/
theorem emit_of_decode {image : Image} {decoded : Decoded}
    (h : (image.decode a.isa a.key a.position.toNat).1 = .ok decoded) :
    ∃ bytes : List UInt8, bytes <+: image.toList.drop a.position.toNat ∧
      bytes.length = decoded.size.toNat ∧
      a.emit decoded.opcode.code decoded.operand =
        .ok (a.position, { a with code := a.code ++ bytes }) := by
  obtain ⟨code, field, hopcode, hlength, hspells, hoperand⟩ := Image.holds_of_decode h
  obtain ⟨word, hword, rfl⟩ := Operand.field?_of_ofField? hlength hoperand
  obtain rfl := InstructionSet.code_of_opcode? hopcode
  rw [Image.spells_iff_prefix, maskBytes_congr a.key a.toUInt32_position] at hspells
  refine ⟨_, hspells, ?_, emit_eq hopcode hword⟩
  rw [length_maskBytes, List.length_cons, hlength, Decoded.toNat_size, Nat.add_comm]

/-- What an assembler emits decodes wherever its bytes stand, under the key and at the offset. -/
theorem decode_of_emit {image : Image} {bytes : List UInt8}
    (hemit : a.emit code operand = .ok (offset, b)) (hbytes : b.code = a.code ++ bytes)
    (h : bytes <+: image.toList.drop a.position.toNat) :
    ∃ decoded, (image.decode a.isa a.key a.position.toNat).1 = .ok decoded := by
  obtain ⟨opcode, word, hopcode, hword, _, rfl⟩ := of_emit_eq_ok hemit
  have hfield : maskBytes a.key a.code.size (code :: littleEndian opcode.form.width word) =
      bytes := by
    have happended := congrArg Array.toList hbytes
    rw [Array.toList_appendList, Array.toList_appendList] at happended
    exact List.append_cancel_left happended
  rw [← hfield, ← maskBytes_congr a.key a.toUInt32_position] at h
  have hdecode := Image.decode_of_spells hopcode hword (Image.spells_iff_prefix.2 h)
  exact ⟨_, congrArg Prod.fst hdecode⟩

/-- Decoding and emitting are inverse. What decodes at the offset of an assembler, under its key, is
emitted as the very bytes that stand there, up to where reading stops; and where nothing decodes,
there is nothing that can be emitted. -/
theorem emits_what_decodes (a : Assembler) (image : Image) :
    (∀ decoded, (image.decode a.isa a.key a.position.toNat).1 = .ok decoded →
      ∃ bytes : List UInt8, bytes <+: image.toList.drop a.position.toNat ∧
        bytes.length = decoded.size.toNat ∧
        a.emit decoded.opcode.code decoded.operand =
          .ok (a.position, { a with code := a.code ++ bytes }) ∧
        (image.decode a.isa a.key a.position.toNat).2 =
          a.position.toNat + decoded.size.toNat) ∧
    ∀ fault, (image.decode a.isa a.key a.position.toNat).1 = .error fault →
      ∀ code operand offset b (bytes : List UInt8), a.emit code operand = .ok (offset, b) →
        b.code = a.code ++ bytes → ¬bytes <+: image.toList.drop a.position.toNat := by
  constructor
  · intro decoded hdecoded
    obtain ⟨bytes, hprefix, hlength, hemit⟩ := emit_of_decode hdecoded
    have hstands : image.Stands a.isa a.key a.position.toNat (decoded.placed a.position) :=
      ⟨rfl, hdecoded, rfl⟩
    exact ⟨bytes, hprefix, hlength, hemit, congrArg Prod.snd hstands.decode_eq⟩
  · intro fault hfault code operand offset b bytes hemit hbytes hprefix
    obtain ⟨decoded, hdecoded⟩ := decode_of_emit hemit hbytes hprefix
    rw [hdecoded] at hfault
    cases hfault

end Assembler

end StackLift
