import Mathlib
import StackLift.Image.Assembler
import StackLift.Machine

namespace StackLift

@[simp] theorem toNat_lowDword (word : UInt64) :
    (lowDword word).toNat = word.toNat % UInt32.size := by
  rw [lowDword, UInt64.toNat_and]
  exact Nat.and_two_pow_sub_one_eq_mod word.toNat 32

@[simp] theorem lowDword_lowDword (word : UInt64) : lowDword (lowDword word) = lowDword word := by
  apply UInt64.toNat_inj.1
  rw [toNat_lowDword, toNat_lowDword, Nat.mod_mod]

theorem toNat_wordOfBytes_cons {byte : UInt8} {rest : List UInt8}
    (h : (wordOfBytes rest).toNat * 256 < UInt64.size) :
    (wordOfBytes (byte :: rest)).toNat = byte.toNat + 256 * (wordOfBytes rest).toNat := by
  have hshift : (wordOfBytes rest <<< 8).toNat = (wordOfBytes rest).toNat <<< 8 := by
    rw [UInt64.toNat_shiftLeft]
    exact Nat.mod_eq_of_lt (by rwa [Nat.shiftLeft_eq])
  rw [wordOfBytes, UInt64.toNat_or, hshift, UInt8.toNat_toUInt64, Nat.or_comm,
    ← Nat.shiftLeft_add_eq_or_of_lt byte.toNat_lt, Nat.shiftLeft_eq]
  omega

theorem toNat_wordOfBytes_lt {bytes : List UInt8} (h : bytes.length ≤ 8) :
    (wordOfBytes bytes).toNat < 256 ^ bytes.length := by
  induction bytes with
  | nil => exact Nat.one_pos
  | cons byte rest ih =>
    rw [List.length_cons] at h
    have hrest := ih (Nat.le_of_succ_le h)
    have hpow : 256 ^ rest.length * 256 ≤ UInt64.size :=
      Nat.pow_le_pow_right (n := 256) (by decide) h
    have hbyte := byte.toNat_lt
    rw [toNat_wordOfBytes_cons (by omega), List.length_cons, Nat.pow_succ']
    omega

theorem toNat_wordOfBytes_littleEndian {n : Nat} (hn : n ≤ 8) (word : UInt64) :
    (wordOfBytes (littleEndian n word)).toNat = word.toNat % 256 ^ n := by
  induction n generalizing word with
  | zero => simp [littleEndian, wordOfBytes, Nat.mod_one]
  | succ n ih =>
    have hrest := ih (Nat.le_of_succ_le hn) (word >>> 8)
    have hdiv : (word >>> 8).toNat = word.toNat / 256 := by
      simp [UInt64.toNat_shiftRight, Nat.shiftRight_eq_div_pow]
    have hlt : (wordOfBytes (littleEndian n (word >>> 8))).toNat < 256 ^ n := by
      rw [hrest]
      exact Nat.mod_lt _ (Nat.pow_pos (by decide))
    have hpow : 256 ^ n * 256 ≤ UInt64.size := Nat.pow_le_pow_right (n := 256) (by decide) hn
    rw [littleEndian, toNat_wordOfBytes_cons (by omega), hrest, hdiv, Nat.pow_succ', Nat.mod_mul]
    rfl

namespace Operand

/-- What a field of the given form keeps of an operand: a dword field keeps the low half of a
word. -/
def kept : OperandForm → Operand → Operand
  | .dword, .immediate value => .immediate (lowDword value)
  | _, operand => operand

@[simp] theorem kept_register (form : OperandForm) (r : Register) :
    kept form (.register r) = .register r := by
  cases form <;> rfl

def register? : Operand → Option Register
  | register r => some r
  | _ => .none

theorem register?_kept (form : OperandForm) (operand : Operand) :
    (operand.kept form).register? = operand.register? := by
  cases operand with
  | none => cases form <;> rfl
  | register r => rw [kept_register]
  | immediate value => cases form <;> rfl

theorem eq_none_of_field? {operand : Operand} {word : UInt64}
    (h : operand.field? .none = some word) : operand = none := by
  cases operand with
  | none => rfl
  | register r => cases h
  | immediate value => cases h

/-- A field gives back what it keeps of an operand. -/
theorem ofField?_littleEndian {form : OperandForm} {operand : Operand} {word : UInt64}
    (h : operand.field? form = some word) :
    ofField? form (wordOfBytes (littleEndian form.width word)) = some (operand.kept form) := by
  rw [field?.eq_def] at h
  split at h
  · rfl
  · next r =>
    cases h
    have hbyte : (wordOfBytes (littleEndian 1 r.toByte.toUInt64)).toUInt8 = r.toByte := by
      apply UInt8.toNat_inj.1
      rw [UInt64.toNat_toUInt8, toNat_wordOfBytes_littleEndian (by decide), UInt8.toNat_toUInt64,
        Nat.pow_one, Nat.mod_mod]
      exact Nat.mod_eq_of_lt r.toByte.toNat_lt
    rw [OperandForm.width, ofField?, hbyte, Register.ofByte?_toByte]
    rfl
  · cases h
    have hlow : wordOfBytes (littleEndian 4 word) = lowDword word := by
      apply UInt64.toNat_inj.1
      rw [toNat_lowDword]
      exact toNat_wordOfBytes_littleEndian (by decide) word
    rw [OperandForm.width, hlow]
    rfl
  · cases h
    have hwhole : wordOfBytes (littleEndian 8 word) = word := by
      apply UInt64.toNat_inj.1
      rw [toNat_wordOfBytes_littleEndian (Nat.le_refl 8)]
      exact Nat.mod_eq_of_lt word.toNat_lt
    rw [OperandForm.width, hwhole]
    rfl
  · cases h

end Operand

@[simp] theorem length_maskBytes (key : UInt32) (position : Nat) (bytes : List UInt8) :
    (maskBytes key position bytes).length = bytes.length := by
  induction bytes generalizing position with
  | nil => rfl
  | cons byte rest ih => rw [maskBytes, List.length_cons, ih, List.length_cons]

namespace Image

variable {image other : Image} {isa : InstructionSet} {key : UInt32} {position : Nat}
  {bytes more : List UInt8}

theorem size_append (image : Image) (bytes : List UInt8) :
    (image ++ bytes).size = image.size + bytes.length := by
  rw [← Array.length_toList, Array.toList_appendList, List.length_append, Array.length_toList]

theorem append_append (image : Image) (bytes more : List UInt8) :
    image ++ bytes ++ more = image ++ (bytes ++ more) := by
  apply Array.toList_inj.1
  simp only [Array.toList_appendList, List.append_assoc]

/-- Under the key, the bytes stand in the code from the position on. -/
def Spells (image : Image) (key : UInt32) : Nat → List UInt8 → Prop
  | _, [] => True
  | position, byte :: rest =>
    image.plainByte? key position = some byte ∧ image.Spells key (position + 1) rest

theorem plainByte?_append {byte : UInt8} (h : image.plainByte? key position = some byte)
    (more : List UInt8) : plainByte? (image ++ more) key position = some byte := by
  obtain ⟨masked, hmasked, hbyte⟩ := Option.map_eq_some_iff.1 h
  obtain ⟨hlt, _⟩ := Array.getElem?_eq_some_iff.1 hmasked
  have hget : (image ++ more)[position]? = image[position]? := by
    rw [← Array.getElem?_toList, ← Array.getElem?_toList, Array.toList_appendList]
    exact List.getElem?_append_left hlt
  rw [plainByte?, hget]
  exact h

theorem Spells.append (h : image.Spells key position bytes) (more : List UInt8) :
    Spells (image ++ more) key position bytes := by
  induction bytes generalizing position with
  | nil => trivial
  | cons byte rest ih => exact ⟨plainByte?_append h.1 more, ih h.2⟩

theorem Spells.congr (h : image.Spells key position bytes)
    (hsame : ∀ k, position ≤ k → k < position + bytes.length → other[k]? = image[k]?) :
    other.Spells key position bytes := by
  induction bytes generalizing position with
  | nil => trivial
  | cons byte rest ih =>
    rw [List.length_cons] at hsame
    refine ⟨?_, ih h.2 fun k hge hlt => hsame k (by omega) (by omega)⟩
    rw [plainByte?, hsame position (Nat.le_refl _) (by omega)]
    exact h.1

theorem spells_append (image : Image) (key : UInt32) (bytes : List UInt8) :
    Spells (image ++ maskBytes key image.size bytes) key image.size bytes := by
  induction bytes generalizing image with
  | nil => trivial
  | cons byte rest ih =>
    have hpush := ih (image.push (byte ^^^ byteMask key image.size.toUInt32))
    rw [Array.size_push] at hpush
    rw [maskBytes, Array.appendList_cons]
    refine ⟨?_, hpush⟩
    apply plainByte?_append
    rw [plainByte?, Array.getElem?_push_size, Option.map_some, UInt8.xor_assoc, UInt8.xor_self,
      UInt8.xor_zero]

theorem readBytes_of_spells (h : image.Spells key position bytes) :
    image.readBytes key position bytes.length = (.ok bytes, position + bytes.length) := by
  induction bytes generalizing position with
  | nil => rfl
  | cons byte rest ih =>
    rw [List.length_cons, readBytes, h.1]
    simp only [ih h.2]
    rw [Nat.add_assoc, Nat.add_comm 1]
    rfl

theorem decode_of_spells {code : UInt8} {opcode : Opcode} {operand : Operand} {word : UInt64}
    (hopcode : isa.opcode? code = some opcode) (hword : operand.field? opcode.form = some word)
    (h : image.Spells key position (code :: littleEndian opcode.form.width word)) :
    image.decode isa key position = (.ok ⟨opcode, operand.kept opcode.form⟩,
      position + (1 + opcode.form.width)) := by
  have hfield := readBytes_of_spells h.2
  rw [length_littleEndian] at hfield
  rw [decode, h.1]
  simp only [hopcode, hfield]
  have hoperand : operandOfBytes position.toUInt32 opcode.form
      (littleEndian opcode.form.width word) = .ok (operand.kept opcode.form) := by
    simp only [operandOfBytes, Operand.ofField?_littleEndian hword]
  rw [Nat.add_assoc]
  congr 1
  change (operandOfBytes _ _ _ >>= fun operand => _) = _
  rw [hoperand]
  rfl

end Image

end StackLift
