import StackLift.Proofs.Assembly
import StackLift.Proofs.Visits

namespace StackLift

namespace Image

variable {image : Image} {key : UInt32} {position k : Nat} {bytes : List UInt8}

@[simp] theorem size_overwrite (image : Image) (position : Nat) (bytes : List UInt8) :
    (overwrite image position bytes).size = image.size := by
  induction bytes generalizing image position with
  | nil => rfl
  | cons byte rest ih => rw [overwrite, ih, Array.size_setIfInBounds]

theorem getElem?_overwrite_left (h : k < position) :
    (overwrite image position bytes)[k]? = image[k]? := by
  induction bytes generalizing image position with
  | nil => rfl
  | cons byte rest ih =>
    rw [overwrite, ih (Nat.lt_succ_of_lt h), Array.getElem?_setIfInBounds_ne (Nat.ne_of_gt h)]

theorem getElem?_overwrite_right (h : position + bytes.length ≤ k) :
    (overwrite image position bytes)[k]? = image[k]? := by
  induction bytes generalizing image position with
  | nil => rfl
  | cons byte rest ih =>
    rw [List.length_cons] at h
    rw [overwrite, ih (by omega), Array.getElem?_setIfInBounds_ne (by omega)]

theorem spells_overwrite (h : position + bytes.length ≤ image.size) :
    Spells (overwrite image position (maskBytes key position bytes)) key position bytes := by
  induction bytes generalizing image position with
  | nil => trivial
  | cons byte rest ih =>
    rw [List.length_cons] at h
    rw [maskBytes, overwrite]
    refine ⟨?_, ih (by rw [Array.size_setIfInBounds]; omega)⟩
    rw [plainByte?, getElem?_overwrite_left (Nat.lt_succ_self position),
      Array.getElem?_setIfInBounds_self_of_lt (by omega), Option.map_some, UInt8.xor_assoc,
      UInt8.xor_self, UInt8.xor_zero]

end Image

namespace Assembler

variable {a b : Assembler} {code : UInt8} {offset : UInt32} {operand : Operand}

theorem of_opcode_eq_ok {opcode : Opcode} (h : a.opcode offset code = .ok opcode) :
    a.isa.opcode? code = some opcode := by
  rw [Assembler.opcode] at h
  split at h
  · next hopcode => rw [hopcode, Except.ok.inj h]
  · cases h

theorem of_encodeOperand_eq_ok {opcode : Opcode} {bytes : List UInt8}
    (h : encodeOperand offset opcode operand = .ok bytes) : ∃ word,
      operand.field? opcode.form = some word ∧ bytes = littleEndian opcode.form.width word := by
  rw [encodeOperand] at h
  split at h
  · next word hword => exact ⟨word, hword, (Except.ok.inj h).symm⟩
  · cases h

theorem of_emit_eq_ok (h : a.emit code operand = .ok (offset, b)) : ∃ opcode word,
    a.isa.opcode? code = some opcode ∧ operand.field? opcode.form = some word ∧
    offset = a.position ∧ b = { a with
      code := a.code ++ maskBytes a.key a.code.size
        (code :: littleEndian opcode.form.width word) } := by
  obtain ⟨opcode, hopcode, h⟩ := bind_eq_ok.1 h
  obtain ⟨bytes, hbytes, h⟩ := bind_eq_ok.1 h
  obtain ⟨word, hword, rfl⟩ := of_encodeOperand_eq_ok hbytes
  cases h
  exact ⟨opcode, word, of_opcode_eq_ok hopcode, hword, rfl, rfl⟩

theorem of_patch_eq_ok (h : a.patch offset operand = .ok b) : ∃ code opcode word,
    a.code.plainByte? a.key offset.toNat = some code ∧ a.isa.opcode? code = some opcode ∧
    operand.field? opcode.form = some word ∧
    offset.toNat + (1 + opcode.form.width) ≤ a.code.size ∧ b = { a with
      code := overwrite a.code (offset.toNat + 1)
        (maskBytes a.key (offset.toNat + 1) (littleEndian opcode.form.width word)) } := by
  rw [patch] at h
  split at h
  · cases h
  next code hcode =>
  obtain ⟨opcode, hopcode, h⟩ := bind_eq_ok.1 h
  obtain ⟨bytes, hbytes, h⟩ := bind_eq_ok.1 h
  obtain ⟨word, hword, rfl⟩ := of_encodeOperand_eq_ok hbytes
  rw [length_littleEndian] at h
  dsimp only at h
  split at h
  · cases h
  next hfits =>
  cases h
  exact ⟨code, opcode, word, hcode, of_opcode_eq_ok hopcode, hword, by omega, rfl⟩

end Assembler

inductive Edit where
  | emit (code : UInt8) (operand : Operand)
  | patch (offset : UInt32) (operand : Operand)
  | setKey (key : UInt32)
deriving DecidableEq

/-- An instruction that was emitted: where its code starts, the offset that was answered, the key in
force, and what was emitted there, its operand as patched last. -/
structure Emission where
  position : Nat
  offset : UInt32
  key : UInt32
  code : UInt8
  operand : Operand
deriving DecidableEq

def Emission.size (isa : InstructionSet) (e : Emission) : Nat :=
  1 + ((isa.opcode? e.code).map (·.form.width)).getD 0

theorem Emission.size_pos (isa : InstructionSet) (e : Emission) : 0 < e.size isa :=
  Nat.lt_add_right _ Nat.one_pos

theorem Emission.size_eq {isa : InstructionSet} {e : Emission} {opcode : Opcode}
    (h : isa.opcode? e.code = some opcode) : e.size isa = 1 + opcode.form.width := by
  rw [size, h]
  rfl

def Emission.patched (offset : UInt32) (operand : Operand) (e : Emission) : Emission :=
  if e.position = offset.toNat then { e with operand } else e

section patched

variable {offset : UInt32} {operand : Operand} {e : Emission}

@[simp] theorem Emission.position_patched : (e.patched offset operand).position = e.position := by
  rw [patched]
  split <;> rfl

@[simp] theorem Emission.offset_patched : (e.patched offset operand).offset = e.offset := by
  rw [patched]
  split <;> rfl

@[simp] theorem Emission.size_patched {isa : InstructionSet} :
    (e.patched offset operand).size isa = e.size isa := by
  rw [patched]
  split <;> rfl

end patched

/-- An assembler, with what was emitted so far in the order of emission. -/
structure Draft where
  assembler : Assembler
  emissions : List Emission

namespace Draft

def start (isa : InstructionSet) (key : UInt32) : Draft :=
  ⟨.start isa key, []⟩

def apply (d : Draft) : Edit → Except Fault Draft
  | .emit code operand => do
    let (offset, assembler) ← d.assembler.emit code operand
    return ⟨assembler, d.emissions ++
      [⟨d.assembler.code.size, offset, d.assembler.key, code, operand⟩]⟩
  | .patch offset operand => do
    let assembler ← d.assembler.patch offset operand
    return ⟨assembler, d.emissions.map (Emission.patched offset operand)⟩
  | .setKey key => return { d with assembler := { d.assembler with key } }

/-- The draft after an edit: an edit that fails is dropped. -/
def edit (d : Draft) (e : Edit) : Draft :=
  match d.apply e with
  | .ok next => next
  | .error _ => d

def run (d : Draft) (edits : List Edit) : Draft :=
  edits.foldl edit d

/-- The offset is that of an emitted instruction, and its key is in force. -/
def Names (d : Draft) (offset : UInt32) : Prop :=
  ∃ e ∈ d.emissions, e.position = offset.toNat ∧ e.key = d.assembler.key

instance (d : Draft) (offset : UInt32) : Decidable (d.Names offset) :=
  inferInstanceAs (Decidable (∃ e ∈ d.emissions, _))

def Allows (d : Draft) : Edit → Prop
  | .patch offset _ => d.Names offset
  | _ => True

instance (d : Draft) (e : Edit) : Decidable (d.Allows e) :=
  match e with
  | .emit _ _ => inferInstanceAs (Decidable True)
  | .patch offset _ => inferInstanceAs (Decidable (d.Names offset))
  | .setKey _ => inferInstanceAs (Decidable True)

/-- Every patch of the history names an emitted instruction when its turn comes. -/
def Proper (d : Draft) : List Edit → Prop
  | [] => True
  | e :: rest => d.Allows e ∧ (d.edit e).Proper rest

end Draft

section Tiles

variable {isa : InstructionSet} {start stop : Nat} {e f : Emission} {emissions : List Emission}

/-- The instructions stand one behind the other, from `start` to `stop`. -/
def Tiles (isa : InstructionSet) : Nat → List Emission → Nat → Prop
  | start, [], stop => start = stop
  | start, e :: rest, stop => e.position = start ∧ Tiles isa (start + e.size isa) rest stop

theorem Tiles.concat (h : Tiles isa start emissions stop) (he : e.position = stop) :
    Tiles isa start (emissions ++ [e]) (stop + e.size isa) := by
  induction emissions generalizing start with
  | nil => exact ⟨he.trans h.symm, congrArg (· + e.size isa) h⟩
  | cons f rest ih => exact ⟨h.1, ih h.2⟩

theorem Tiles.le (h : Tiles isa start emissions stop) : start ≤ stop := by
  induction emissions generalizing start with
  | nil => exact Nat.le_of_eq h
  | cons f rest ih => exact Nat.le_of_add_right_le (ih h.2)

theorem Tiles.within (h : Tiles isa start emissions stop) (he : e ∈ emissions) :
    start ≤ e.position ∧ e.position + e.size isa ≤ stop := by
  induction emissions generalizing start with
  | nil => cases he
  | cons f rest ih =>
    rcases List.mem_cons.1 he with rfl | he
    · exact ⟨Nat.le_of_eq h.1.symm, h.1 ▸ h.2.le⟩
    · have hrest := ih h.2 he
      exact ⟨Nat.le_of_add_right_le hrest.1, hrest.2⟩

theorem Tiles.apart (h : Tiles isa start emissions stop) (he : e ∈ emissions)
    (hf : f ∈ emissions) : e = f ∨ e.position + e.size isa ≤ f.position ∨
      f.position + f.size isa ≤ e.position := by
  induction emissions generalizing start with
  | nil => cases he
  | cons first rest ih =>
    rcases List.mem_cons.1 he with rfl | hlater <;> rcases List.mem_cons.1 hf with rfl | hlater'
    · exact .inl rfl
    · exact .inr (.inl (h.1 ▸ (h.2.within hlater').1))
    · exact .inr (.inr (h.1 ▸ (h.2.within hlater).1))
    · exact ih h.2 hlater hlater'

theorem Tiles.eq_of_position (h : Tiles isa start emissions stop) (he : e ∈ emissions)
    (hf : f ∈ emissions) (hsame : e.position = f.position) : e = f := by
  rcases h.apart he hf with heq | hbefore | hafter
  · exact heq
  · have hsize := e.size_pos isa
    omega
  · have hsize := f.size_pos isa
    omega

theorem Tiles.patched {offset : UInt32} {operand : Operand}
    (h : Tiles isa start emissions stop) :
    Tiles isa start (emissions.map (Emission.patched offset operand)) stop := by
  induction emissions generalizing start with
  | nil => exact h
  | cons e rest ih =>
    refine ⟨Emission.position_patched.trans h.1, ?_⟩
    rw [Emission.size_patched]
    exact ih h.2

end Tiles

def Emission.Spelled (e : Emission) (isa : InstructionSet) (image : Image) : Prop :=
  ∃ opcode word, isa.opcode? e.code = some opcode ∧ e.operand.field? opcode.form = some word ∧
    image.Spells e.key e.position (e.code :: littleEndian opcode.form.width word)

/-- Decoding where the instruction was emitted, under its key, gives it back as its field keeps it
and leaves off behind it. -/
def Emission.Decodes (e : Emission) (isa : InstructionSet) (image : Image) : Prop :=
  ∃ opcode, isa.opcode? e.code = some opcode ∧
    image.decode isa e.key e.position = (.ok ⟨opcode, e.operand.kept opcode.form⟩,
      e.position + (1 + opcode.form.width)) ∧
    (Decoded.mk opcode (e.operand.kept opcode.form)).size.toNat = 1 + opcode.form.width

theorem Emission.Spelled.decodes {e : Emission} {isa : InstructionSet} {image : Image}
    (h : e.Spelled isa image) : e.Decodes isa image := by
  obtain ⟨opcode, word, hopcode, hword, hspells⟩ := h
  exact ⟨opcode, hopcode, Image.decode_of_spells hopcode hword hspells, Decoded.toNat_size _⟩

theorem Emission.Spelled.congr {e : Emission} {isa : InstructionSet} {image other : Image}
    (h : e.Spelled isa image)
    (hsame : ∀ k, e.position ≤ k → k < e.position + e.size isa → other[k]? = image[k]?) :
    e.Spelled isa other := by
  obtain ⟨opcode, word, hopcode, hword, hspells⟩ := h
  refine ⟨opcode, word, hopcode, hword, hspells.congr fun k hge hlt => hsame k hge ?_⟩
  rw [List.length_cons, length_littleEndian, Nat.add_comm _ 1] at hlt
  rwa [size_eq hopcode]

namespace Draft

variable {d next : Draft} {isa : InstructionSet}

structure Sound (d : Draft) (isa : InstructionSet) : Prop where
  table : d.assembler.isa = isa
  tiles : Tiles isa 0 d.emissions d.assembler.code.size
  offset : ∀ e ∈ d.emissions, e.offset = e.position.toUInt32
  spelled : ∀ e ∈ d.emissions, e.Spelled isa d.assembler.code

theorem sound_start (isa : InstructionSet) (key : UInt32) : (start isa key).Sound isa :=
  ⟨rfl, rfl, fun _ he => (nomatch he), fun _ he => (nomatch he)⟩

theorem Sound.emit (hd : d.Sound isa) {code : UInt8} {operand : Operand} {offset : UInt32}
    {b : Assembler} (h : d.assembler.emit code operand = .ok (offset, b)) :
    Sound ⟨b, d.emissions ++ [⟨d.assembler.code.size, offset, d.assembler.key, code, operand⟩]⟩
      isa := by
  obtain ⟨opcode, word, hopcode, hword, rfl, rfl⟩ := Assembler.of_emit_eq_ok h
  rw [hd.table] at hopcode
  let e : Emission :=
    ⟨d.assembler.code.size, d.assembler.position, d.assembler.key, code, operand⟩
  have hsize : e.size isa = 1 + opcode.form.width := Emission.size_eq hopcode
  refine ⟨hd.table, ?_, ?_, ?_⟩
  · dsimp only
    rw [Image.size_append, length_maskBytes, List.length_cons, length_littleEndian,
      Nat.add_comm _ 1, ← hsize]
    exact hd.tiles.concat rfl
  · intro f hf
    rcases List.mem_append.1 hf with hf | hf
    · exact hd.offset f hf
    · rw [List.mem_singleton.1 hf]
      rfl
  · intro f hf
    rcases List.mem_append.1 hf with hf | hf
    · obtain ⟨opcode', word', hopcode', hword', hspells⟩ := hd.spelled f hf
      exact ⟨opcode', word', hopcode', hword', hspells.append _⟩
    · rw [List.mem_singleton.1 hf]
      exact ⟨opcode, word, hopcode, hword, Image.spells_append _ _ _⟩

theorem Sound.of_patch (hd : d.Sound isa) {offset : UInt32} {operand : Operand} {b : Assembler}
    {e : Emission} (he : e ∈ d.emissions) (hposition : e.position = offset.toNat)
    (hkey : e.key = d.assembler.key) (h : d.assembler.patch offset operand = .ok b) :
    ∃ opcode word, isa.opcode? e.code = some opcode ∧ operand.field? opcode.form = some word ∧
      e.position + (1 + opcode.form.width) ≤ d.assembler.code.size ∧
      b = { d.assembler with
        code := overwrite d.assembler.code (e.position + 1)
          (maskBytes d.assembler.key (e.position + 1)
            (littleEndian opcode.form.width word)) } := by
  obtain ⟨code, opcode, word, hcode, hopcode, hword, hfits, hb⟩ := Assembler.of_patch_eq_ok h
  obtain ⟨_, _, _, _, hspells⟩ := hd.spelled e he
  rw [← hposition] at hcode hfits hb
  rw [← hkey] at hcode
  have hread : code = e.code := Option.some.inj (hcode.symm.trans hspells.1)
  rw [hd.table, hread] at hopcode
  exact ⟨opcode, word, hopcode, hword, hfits, hb⟩

/-- A patch changes bytes of the field behind the code of the named instruction only. -/
theorem Sound.patch_window (hd : d.Sound isa) {offset : UInt32} {operand : Operand}
    {b : Assembler} {e : Emission} (he : e ∈ d.emissions) (hposition : e.position = offset.toNat)
    (hkey : e.key = d.assembler.key) (h : d.assembler.patch offset operand = .ok b) {k : Nat}
    (hk : k ≤ e.position ∨ e.position + e.size isa ≤ k) :
    b.code[k]? = d.assembler.code[k]? := by
  obtain ⟨opcode, word, hopcode, _, _, rfl⟩ := hd.of_patch he hposition hkey h
  rw [Emission.size_eq hopcode] at hk
  rcases hk with hk | hk
  · exact Image.getElem?_overwrite_left (Nat.lt_succ_of_le hk)
  · apply Image.getElem?_overwrite_right
    rw [length_maskBytes, length_littleEndian]
    omega

/-- After a patch the code spells what is then listed: a named instruction its new operand, and any
other one, which does not meet the window, what it spelled before. -/
theorem Sound.spelled_patched (hd : d.Sound isa) {offset : UInt32} {operand : Operand}
    {b : Assembler} (hnames : d.Names offset) (h : d.assembler.patch offset operand = .ok b)
    {f : Emission} (hf : f ∈ d.emissions) : (f.patched offset operand).Spelled isa b.code := by
  obtain ⟨e, he, hposition, hkey⟩ := hnames
  have hwindow := fun k => hd.patch_window (k := k) he hposition hkey h
  by_cases hnamed : f.position = offset.toNat
  · obtain rfl := hd.tiles.eq_of_position hf he (hnamed.trans hposition.symm)
    obtain ⟨opcode, word, hopcode, hword, hfits, hb⟩ := hd.of_patch hf hposition hkey h
    obtain ⟨_, _, _, _, hspells⟩ := hd.spelled f hf
    rw [Emission.patched, if_pos hnamed]
    refine ⟨opcode, word, hopcode, hword, ?_, ?_⟩
    · rw [Image.plainByte?, hwindow f.position (.inl (Nat.le_refl _))]
      exact hspells.1
    · rw [hb, hkey]
      apply Image.spells_overwrite
      rw [length_littleEndian]
      omega
  · rw [Emission.patched, if_neg hnamed]
    refine (hd.spelled f hf).congr fun k hge hlt => hwindow k ?_
    rcases hd.tiles.apart hf he with rfl | hbefore | hafter
    · exact absurd hposition hnamed
    · exact .inl (by omega)
    · exact .inr (by omega)

theorem Sound.patch (hd : d.Sound isa) {offset : UInt32} {operand : Operand} {b : Assembler}
    (hnames : d.Names offset) (h : d.assembler.patch offset operand = .ok b) :
    Sound ⟨b, d.emissions.map (Emission.patched offset operand)⟩ isa := by
  obtain ⟨_, _, _, _, _, _, _, hb⟩ := Assembler.of_patch_eq_ok h
  refine ⟨?_, ?_, ?_, ?_⟩
  · rw [hb]
    exact hd.table
  · dsimp only
    rw [hb, Image.size_overwrite]
    exact hd.tiles.patched
  · intro f hf
    obtain ⟨f, hmem, rfl⟩ := List.mem_map.1 hf
    rw [Emission.offset_patched, Emission.position_patched]
    exact hd.offset f hmem
  · intro f hf
    obtain ⟨f, hmem, rfl⟩ := List.mem_map.1 hf
    exact hd.spelled_patched hnames h hmem

theorem Sound.edit (hd : d.Sound isa) {e : Edit} (hallows : d.Allows e) :
    (d.edit e).Sound isa := by
  rw [Draft.edit]
  split
  · next next happly =>
    cases e with
    | emit code operand =>
      obtain ⟨⟨offset, b⟩, hemit, h⟩ := bind_eq_ok.1 happly
      cases h
      exact hd.emit hemit
    | patch offset operand =>
      obtain ⟨b, hpatch, h⟩ := bind_eq_ok.1 happly
      cases h
      exact hd.patch hallows hpatch
    | setKey key =>
      cases happly
      exact ⟨hd.table, hd.tiles, hd.offset, hd.spelled⟩
  · exact hd

theorem Proper.append {earlier later : List Edit} (h : d.Proper (earlier ++ later)) :
    d.Proper earlier ∧ (d.run earlier).Proper later := by
  induction earlier generalizing d with
  | nil => exact ⟨trivial, h⟩
  | cons e rest ih => exact ⟨⟨h.1, (ih h.2).1⟩, (ih h.2).2⟩

theorem Sound.run (hd : d.Sound isa) {edits : List Edit} (h : d.Proper edits) :
    (d.run edits).Sound isa := by
  induction edits generalizing d with
  | nil => exact hd
  | cons e rest ih => exact ih (hd.edit h.1) h.2

/-- What the edit cannot do to the code: without success it does nothing, and a patch stays in the
operand of an instruction that it names. -/
def Confines (d : Draft) (isa : InstructionSet) (e : Edit) : Prop :=
  (∀ fault, d.apply e = .error fault →
    (d.edit e).assembler.code = d.assembler.code ∧
      (d.edit e).assembler.position = d.assembler.position) ∧
  ∀ offset operand, e = .patch offset operand →
    ∃ t ∈ d.emissions, t.position = offset.toNat ∧
      ∀ k, k ≤ t.position ∨ t.position + t.size isa ≤ k →
        (d.edit e).assembler.code[k]? = d.assembler.code[k]?

theorem Sound.confines (hd : d.Sound isa) {e : Edit} (hallows : d.Allows e) :
    d.Confines isa e := by
  constructor
  · intro fault hfault
    rw [Draft.edit, hfault]
    exact ⟨rfl, rfl⟩
  · rintro offset operand rfl
    obtain ⟨t, ht, hposition, hkey⟩ := hallows
    refine ⟨t, ht, hposition, fun k hk => ?_⟩
    rw [Draft.edit]
    split
    · next next happly =>
      obtain ⟨b, hpatch, h⟩ := bind_eq_ok.1 happly
      cases h
      exact hd.patch_window ht hposition hkey hpatch hk
    · rfl

/-- In every history whose patches name emitted instructions under the keys that they were emitted
with, what was emitted tiles the code and decodes at its position under its key, and no edit changes
more of the code than it may. -/
theorem run_decodes {key : UInt32} {edits : List Edit} (h : (start isa key).Proper edits) :
    Tiles isa 0 ((start isa key).run edits).emissions
      ((start isa key).run edits).assembler.code.size ∧
    ((start isa key).run edits).assembler.position =
      ((start isa key).run edits).assembler.code.size.toUInt32 ∧
    (∀ e ∈ ((start isa key).run edits).emissions, e.offset = e.position.toUInt32 ∧
      e.Decodes isa ((start isa key).run edits).assembler.code) ∧
    ∀ earlier e later, edits = earlier ++ e :: later →
      ((start isa key).run earlier).Confines isa e := by
  have hrun := (sound_start isa key).run h
  refine ⟨hrun.tiles, rfl, fun e he => ⟨hrun.offset e he, (hrun.spelled e he).decodes⟩, ?_⟩
  rintro earlier e later rfl
  obtain ⟨hearlier, hallows, _⟩ := h.append
  exact ((sound_start isa key).run hearlier).confines hallows

/-- A push that is patched under its own key after the key was changed for the `POP` behind it, with
an emission and a patch that fail in between. -/
def rekeying : List Edit :=
  [.emit Code.pushDword (.immediate 0), .setKey 0xC0FFEE00, .emit Code.pop (.register .r1),
    .emit 0xEE .none, .setKey 7, .patch 0 (.register .r0), .patch 0 (.immediate 0x100000006),
    .emit Code.ret .none]

theorem rekeying_decodes :
    (start .reference 7).Proper rekeying ∧
      ((start .reference 7).run rekeying).emissions =
        [⟨0, 0, 7, Code.pushDword, .immediate 0x100000006⟩,
          ⟨5, 5, 0xC0FFEE00, Code.pop, .register .r1⟩, ⟨7, 7, 7, Code.ret, .none⟩] ∧
      ∀ e ∈ ((start .reference 7).run rekeying).emissions, e.offset = e.position.toUInt32 ∧
        e.Decodes .reference ((start .reference 7).run rekeying).assembler.code := by
  have hproper : (start .reference 7).Proper rekeying := by
    refine ⟨trivial, trivial, trivial, trivial, trivial, ?_, ?_, trivial, trivial⟩ <;>
      exact ⟨⟨0, 0, 7, Code.pushDword, .immediate 0⟩, by decide +kernel, rfl, rfl⟩
  exact ⟨hproper, by decide +kernel, (run_decodes hproper).2.2.1⟩

end Draft

end StackLift
