namespace StackLift

inductive Register where
  | r0 | r1 | r2 | r3 | r4 | r5 | r6 | r7
  | bp | sp | ip | fl | k1 | k2 | m1 | m2
deriving DecidableEq

namespace Register

/-- Every register, in the order of its encoding. -/
def all : List Register :=
  [r0, r1, r2, r3, r4, r5, r6, r7, bp, sp, ip, fl, k1, k2, m1, m2]

def index : Register → Fin 16
  | r0 => 0 | r1 => 1 | r2 => 2 | r3 => 3 | r4 => 4 | r5 => 5 | r6 => 6 | r7 => 7
  | bp => 8 | sp => 9 | ip => 10 | fl => 11 | k1 => 12 | k2 => 13 | m1 => 14 | m2 => 15

def ofIndex (i : Fin 16) : Register :=
  all.get i

/-- The register that a byte names. -/
def ofByte? (byte : UInt8) : Option Register :=
  if h : byte.toNat < 16 then some (ofIndex ⟨byte.toNat, h⟩) else none

/-- The byte that names a register. -/
def toByte (r : Register) : UInt8 :=
  UInt8.ofNat r.index

def name : Register → String
  | r0 => "R0" | r1 => "R1" | r2 => "R2" | r3 => "R3"
  | r4 => "R4" | r5 => "R5" | r6 => "R6" | r7 => "R7"
  | bp => "BP" | sp => "SP" | ip => "IP" | fl => "FL"
  | k1 => "K1" | k2 => "K2" | m1 => "M1" | m2 => "M2"

@[simp] theorem mem_all (r : Register) : r ∈ all := by
  cases r <;> decide

@[simp] theorem ofIndex_index (r : Register) : ofIndex r.index = r := by
  cases r <;> rfl

theorem index_ofIndex : ∀ i : Fin 16, (ofIndex i).index = i := by
  decide

theorem index_inj {r s : Register} : r.index = s.index ↔ r = s :=
  ⟨fun h => by rw [← ofIndex_index r, h, ofIndex_index], fun h => h ▸ rfl⟩

@[simp] theorem ofByte?_toByte (r : Register) : ofByte? r.toByte = some r := by
  cases r <;> rfl

theorem toByte_of_ofByte? {byte : UInt8} {r : Register} (h : ofByte? byte = some r) :
    r.toByte = byte := by
  rw [ofByte?] at h
  split at h
  · cases h
    rw [toByte, index_ofIndex]
    exact UInt8.ofNat_toNat
  · cases h

end Register

/-- One cell for each register. -/
structure RegisterFile (α : Type) where
  cells : Vector α 16
deriving DecidableEq

namespace RegisterFile

variable {α : Type}

def get (file : RegisterFile α) (r : Register) : α :=
  file.cells[r.index]

def set (file : RegisterFile α) (r : Register) (a : α) : RegisterFile α :=
  ⟨file.cells.set r.index a⟩

def ofFn (f : Register → α) : RegisterFile α :=
  ⟨Vector.ofFn fun i => f (Register.ofIndex i)⟩

/-- The same value in every register. -/
def fill (a : α) : RegisterFile α :=
  ofFn fun _ => a

@[simp] theorem get_ofFn (f : Register → α) (r : Register) : (ofFn f).get r = f r := by
  simp [get, ofFn]

@[simp] theorem get_fill (a : α) (r : Register) : (fill a).get r = a :=
  get_ofFn _ r

theorem get_set (file : RegisterFile α) (r s : Register) (a : α) :
    (file.set r a).get s = if s = r then a else file.get s := by
  have h : (r.index : Nat) = s.index ↔ s = r := by
    rw [Fin.val_inj, Register.index_inj, eq_comm]
  simp [get, set, Vector.getElem_set, h]

@[simp] theorem get_set_self (file : RegisterFile α) (r : Register) (a : α) :
    (file.set r a).get r = a := by
  simp [get_set]

theorem get_set_of_ne (file : RegisterFile α) {r s : Register} (a : α) (h : s ≠ r) :
    (file.set r a).get s = file.get s := by
  simp [get_set, h]

theorem ext_get {f g : RegisterFile α} (h : ∀ r, f.get r = g.get r) : f = g := by
  obtain ⟨f⟩ := f
  obtain ⟨g⟩ := g
  congr 1
  ext i hi
  have := h (Register.ofIndex ⟨i, hi⟩)
  simpa [get, Register.index_ofIndex] using this

end RegisterFile

end StackLift
