import StackLift.Fault
import StackLift.Provenance
import StackLift.Total

/-!
The symbolic state at one code offset: where it stands, the key of its code, and the provenance of
every register and stack cell. Frames of the same depth merge cell by cell; the instruction pointer
is left out, since every visit binds it anew. A merge that grows uses up room
(`Frame.room_of_merge`).
-/

namespace StackLift

/-- The stack is listed top first. -/
structure Frame where
  ip : UInt32
  key : UInt32
  registers : RegisterFile Provenance
  stack : List Provenance
deriving DecidableEq

namespace Frame

def start (ip key : UInt32) : Frame :=
  ⟨ip, key, .fill (.entry .object), []⟩

def depth (f : Frame) : Nat :=
  f.stack.length

def moveTo (f : Frame) (ip : UInt32) : Frame :=
  { f with ip := ip }

def setRegister (f : Frame) (r : Register) (v : Provenance) : Frame :=
  { f with registers := f.registers.set r v }

def push (f : Frame) (v : Provenance) : Frame :=
  { f with stack := v :: f.stack }

def top? (f : Frame) : Option Provenance :=
  f.stack.head?

/-- The cell on top, and the frame without it; an empty stack stays as it is. -/
def pop (f : Frame) : Option Provenance × Frame :=
  (f.top?, { f with stack := f.stack.tail })

/-- Register by register, without the instruction pointer. -/
def mergeRegisters (a b : RegisterFile Provenance) : RegisterFile Provenance :=
  .ofFn fun r => if r = .ip then a.get r else (a.get r).merge (b.get r)

def registersGrow (a b : RegisterFile Provenance) : Bool :=
  Register.all.any fun r => r ≠ .ip && (a.get r).grows (b.get r)

def mergeStack (a b : List Provenance) : List Provenance :=
  List.zipWith Provenance.merge a b

def stackGrows (a b : List Provenance) : Bool :=
  (a.zip b).any fun cells => cells.1.grows cells.2

/-- Joins the frame recorded at an offset with one that arrives there, and tells whether the
recorded one grew. -/
def merge (a b : Frame) : Except Fault (Frame × Bool) :=
  if a.depth = b.depth then
    .ok ({ a with
            registers := mergeRegisters a.registers b.registers
            stack := mergeStack a.stack b.stack },
          stackGrows a.stack b.stack || registersGrow a.registers b.registers)
  else .error (.stackMismatch a.ip a.depth b.depth)

/-- How much a frame can still grow. -/
def room (f : Frame) : Nat :=
  totalOf Provenance.room f.stack + totalOf (fun r => (f.registers.get r).room) Register.all

theorem stackRoom_merge_le {a b : List Provenance} (h : a.length = b.length) :
    totalOf Provenance.room (mergeStack a b) ≤ totalOf Provenance.room a := by
  induction a generalizing b with
  | nil => cases b <;> simp [mergeStack] at h ⊢
  | cons v a ih =>
    cases b with
    | nil => simp at h
    | cons w b =>
      have := ih (b := b) (by simpa using h)
      have hv := v.room_merge_le w
      simp only [mergeStack, List.zipWith_cons_cons, totalOf] at this ⊢
      omega

theorem stackRoom_merge_lt {a b : List Provenance} (h : a.length = b.length)
    (hgrows : stackGrows a b = true) :
    totalOf Provenance.room (mergeStack a b) < totalOf Provenance.room a := by
  induction a generalizing b with
  | nil => simp [stackGrows] at hgrows
  | cons v a ih =>
    cases b with
    | nil => simp at h
    | cons w b =>
      have hlen : a.length = b.length := by simpa using h
      have hle := stackRoom_merge_le hlen
      have hv := v.room_merge_le w
      simp only [stackGrows, List.zip_cons_cons, List.any_cons, Bool.or_eq_true] at hgrows
      simp only [mergeStack, List.zipWith_cons_cons, totalOf] at hle ⊢
      rcases hgrows with hgrows | hgrows
      · have := Provenance.room_merge_lt hgrows
        omega
      · have := ih hlen hgrows
        simp only [mergeStack] at this
        omega

theorem room_mergeRegisters_le (a b : RegisterFile Provenance) (r : Register) :
    ((mergeRegisters a b).get r).room ≤ (a.get r).room := by
  rw [mergeRegisters, RegisterFile.get_ofFn]
  split
  · exact Nat.le_refl _
  · exact Provenance.room_merge_le _ _

/-- Merging never makes room, and uses some up when it grows. -/
theorem room_of_merge {a b m : Frame} {grew : Bool} (h : a.merge b = .ok (m, grew)) :
    m.room ≤ a.room ∧ (grew = true → m.room < a.room) := by
  rw [merge] at h
  split at h
  · next hdepth =>
    cases h
    have hstack := stackRoom_merge_le hdepth
    have hregisters := totalOf_le (room_mergeRegisters_le a.registers b.registers) Register.all
    refine ⟨Nat.add_le_add hstack hregisters, fun hgrew => ?_⟩
    rcases Bool.or_eq_true .. ▸ hgrew with hgrew | hgrew
    · exact Nat.add_lt_add_of_lt_of_le (stackRoom_merge_lt hdepth hgrew) hregisters
    · refine Nat.add_lt_add_of_le_of_lt hstack ?_
      simp only [registersGrow, List.any_eq_true, Bool.and_eq_true, decide_eq_true_eq] at hgrew
      obtain ⟨r, hr, hne, hgrows⟩ := hgrew
      refine totalOf_lt (room_mergeRegisters_le a.registers b.registers) hr ?_
      rw [mergeRegisters, RegisterFile.get_ofFn, if_neg hne]
      exact Provenance.room_merge_lt hgrows
  · cases h

end Frame

end StackLift
