import StackLift.Proofs.Assembly
import StackLift.Proofs.Visits

namespace StackLift

namespace Image

variable {image other : Image} {isa : InstructionSet} {key : UInt32} {position n : Nat}
  {bytes : List UInt8} {i : Instruction}

theorem Spells.le_size (h : image.Spells key position bytes) (hle : position ≤ image.size) :
    position + bytes.length ≤ image.size := by
  induction bytes generalizing position with
  | nil => exact hle
  | cons byte rest ih =>
    obtain ⟨masked, hmasked, _⟩ := Option.map_eq_some_iff.1 h.1
    obtain ⟨hlt, _⟩ := Array.getElem?_eq_some_iff.1 hmasked
    have hrest := ih h.2 hlt
    rw [List.length_cons]
    omega

theorem spells_of_readBytes (h : (image.readBytes key position n).1 = .ok bytes) :
    bytes.length = n ∧ image.Spells key position bytes := by
  induction n generalizing position bytes with
  | zero =>
    cases h
    exact ⟨rfl, trivial⟩
  | succ n ih =>
    rw [readBytes] at h
    split at h
    · cases h
    · next byte hbyte =>
      obtain ⟨rest, hrest, rfl⟩ := ok_of_map_eq_ok h
      obtain ⟨hlength, hspells⟩ := ih hrest
      exact ⟨congrArg Nat.succ hlength, hbyte, hspells⟩

theorem operandOfBytes_eq_ok_iff {offset : UInt32} {form : OperandForm} {operand : Operand} :
    operandOfBytes offset form bytes = .ok operand ↔
      Operand.ofField? form (wordOfBytes bytes) = some operand := by
  simp only [operandOfBytes]
  cases Operand.ofField? form (wordOfBytes bytes) <;> simp

def Holds (image : Image) (isa : InstructionSet) (key : UInt32) (position : Nat)
    (decoded : Decoded) : Prop :=
  ∃ code bytes, isa.opcode? code = some decoded.opcode ∧
    bytes.length = decoded.opcode.form.width ∧ image.Spells key position (code :: bytes) ∧
    Operand.ofField? decoded.opcode.form (wordOfBytes bytes) = some decoded.operand

theorem holds_of_decode {decoded : Decoded} (h : (image.decode isa key position).1 = .ok decoded) :
    image.Holds isa key position decoded := by
  rw [decode] at h
  split at h
  · cases h
  next code hcode =>
  split at h
  · cases h
  next opcode hopcode =>
  obtain ⟨bytes, hbytes, h⟩ := bind_eq_ok.1 h
  obtain ⟨operand, hoperand, h⟩ := bind_eq_ok.1 h
  cases h
  obtain ⟨hlength, hspells⟩ := spells_of_readBytes hbytes
  exact ⟨code, bytes, hopcode, hlength, ⟨hcode, hspells⟩, operandOfBytes_eq_ok_iff.1 hoperand⟩

theorem decode_of_holds {decoded : Decoded} (h : image.Holds isa key position decoded) :
    (image.decode isa key position).1 = .ok decoded := by
  obtain ⟨code, bytes, hopcode, hlength, hspells, hoperand⟩ := h
  have hfield := readBytes_of_spells hspells.2
  rw [hlength] at hfield
  rw [decode, hspells.1]
  simp only [hopcode, hfield]
  apply bind_eq_ok.2 ⟨bytes, rfl, ?_⟩
  exact bind_eq_ok.2 ⟨decoded.operand, operandOfBytes_eq_ok_iff.2 hoperand, rfl⟩

theorem decode_eq_ok_iff {decoded : Decoded} :
    (image.decode isa key position).1 = .ok decoded ↔ image.Holds isa key position decoded :=
  ⟨holds_of_decode, decode_of_holds⟩

/-- The image has the bytes of the instruction as the other one has them. -/
def AgreesOn (image other : Image) (i : Instruction) : Prop :=
  ∀ k < i.size.toNat, image[i.offset.toNat + k]? = other[i.offset.toNat + k]?

instance (image other : Image) (i : Instruction) : Decidable (image.AgreesOn other i) :=
  inferInstanceAs (Decidable (∀ k < i.size.toNat, _))

theorem Stands.le_size (h : image.Stands isa key position i) :
    position + i.size.toNat ≤ image.size := by
  obtain ⟨code, bytes, _, hlength, hspells, _⟩ := decode_eq_ok_iff.1 h.decode
  obtain ⟨masked, hmasked, _⟩ := Option.map_eq_some_iff.1 hspells.1
  obtain ⟨hlt, _⟩ := Array.getElem?_eq_some_iff.1 hmasked
  have hle := hspells.le_size (Nat.le_of_lt hlt)
  rw [h.toNat_size, ← hlength, Nat.add_comm 1]
  exact hle

/-- What stands at a position decodes there, and reading stops behind it. -/
theorem Stands.decode_eq (h : image.Stands isa key position i) :
    image.decode isa key position = (.ok ⟨i.opcode, i.operand⟩, position + i.size.toNat) := by
  apply Prod.ext h.decode
  obtain ⟨code, bytes, hopcode, hlength, hspells, _⟩ := decode_eq_ok_iff.1 h.decode
  have hfield := congrArg Prod.snd (readBytes_of_spells hspells.2)
  rw [hlength, Nat.add_assoc, ← h.toNat_size] at hfield
  rw [Image.decode, hspells.1]
  simp only [hopcode]
  exact hfield

theorem Stands.congr (h : other.Stands isa key position i) (hagrees : image.AgreesOn other i) :
    image.Stands isa key position i := by
  obtain ⟨code, bytes, hopcode, hlength, hspells, hoperand⟩ := decode_eq_ok_iff.1 h.decode
  have hsize : i.size.toNat = (code :: bytes).length := by
    rw [h.toNat_size, List.length_cons, hlength, Nat.add_comm]
  have hspells : image.Spells key position (code :: bytes) := by
    apply hspells.congr
    intro k hge hlt
    have hk := hagrees (k - position) (by omega)
    rwa [h.offset, Nat.add_sub_of_le hge] at hk
  exact ⟨h.offset, decode_eq_ok_iff.2 ⟨code, bytes, hopcode, hlength, hspells, hoperand⟩, h.size⟩

end Image

namespace Discovery

variable {d : Discovery} {frame : Frame} {node : Node} {i : Instruction}

theorem decode_of_stands (h : d.image.Stands d.isa frame.key frame.ip.toNat i) :
    d.decode frame = .ok (.fresh i frame) := by
  have hoffset : i.offset = frame.ip := UInt32.toNat_inj.1 h.offset
  rw [decode, h.decode, ← hoffset]
  change Except.ok (Node.fresh ⟨i.offset, i.opcode, i.operand, _⟩ frame) = _
  rw [← h.size]

theorem stands_of_decode (h : d.decode frame = .ok node) :
    d.image.Stands d.isa frame.key frame.ip.toNat node.toInstruction ∧
      node = .fresh node.toInstruction frame := by
  obtain ⟨decoded, hdecoded, h⟩ := bind_eq_ok.1 h
  cases h
  exact ⟨⟨rfl, hdecoded, rfl⟩, rfl⟩

end Discovery

end StackLift
