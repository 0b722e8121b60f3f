import StackLift.Opcode

namespace StackLift

/-- What a service consumes from the stack and leaves on it. -/
structure Signature where
  name : String
  arguments : UInt64
  returns : Option ValueKind
deriving DecidableEq

/-- A service and the selector that picks it. -/
structure Call where
  selector : UInt64
  signature : Signature
deriving DecidableEq

/-- Opcodes with distinct codes, and calls with distinct selectors. -/
structure InstructionSet where
  opcodes : List Opcode
  calls : List Call
  nodup_codes : (opcodes.map Opcode.code).Nodup
  nodup_selectors : (calls.map Call.selector).Nodup

namespace InstructionSet

def empty : InstructionSet :=
  ⟨[], [], List.nodup_nil, List.nodup_nil⟩

def size (isa : InstructionSet) : Nat :=
  isa.opcodes.length

def opcode? (isa : InstructionSet) (code : UInt8) : Option Opcode :=
  isa.opcodes.find? (·.code = code)

def signature? (isa : InstructionSet) (selector : UInt64) : Option Signature :=
  (isa.calls.find? (·.selector = selector)).map Call.signature

theorem nodup_cons_filter_ne {α β : Type} [DecidableEq β] (key : α → β) (a : α) {as : List α}
    (h : (as.map key).Nodup) : ((a :: as.filter (key · ≠ key a)).map key).Nodup := by
  rw [List.map_cons, List.nodup_cons]
  refine ⟨?_, List.Nodup.sublist (List.filter_sublist.map key) h⟩
  simp

def insert (isa : InstructionSet) (opcode : Opcode) : InstructionSet :=
  { isa with
    opcodes := opcode :: isa.opcodes.filter (·.code ≠ opcode.code)
    nodup_codes := nodup_cons_filter_ne Opcode.code opcode isa.nodup_codes }

def insertCall (isa : InstructionSet) (call : Call) : InstructionSet :=
  { isa with
    calls := call :: isa.calls.filter (·.selector ≠ call.selector)
    nodup_selectors := nodup_cons_filter_ne Call.selector call isa.nodup_selectors }

theorem code_of_opcode? {isa : InstructionSet} {code : UInt8} {opcode : Opcode}
    (h : isa.opcode? code = some opcode) : opcode.code = code := by
  simpa using List.find?_some h

theorem find?_filter_ne {α β : Type} [DecidableEq β] (key : α → β) (as : List α) {b c : β}
    (h : c ≠ b) : (as.filter (key · ≠ b)).find? (key · = c) = as.find? (key · = c) := by
  rw [List.find?_filter]
  congr 1
  funext a
  by_cases ha : key a = c <;> simp [ha, h]

theorem opcode?_insert (isa : InstructionSet) (opcode : Opcode) (code : UInt8) :
    (isa.insert opcode).opcode? code =
      if code = opcode.code then some opcode else isa.opcode? code := by
  rw [opcode?, insert]
  split
  · next h => simp [h]
  · next h =>
    rw [List.find?_cons_of_neg (by simpa [eq_comm] using h)]
    exact find?_filter_ne Opcode.code isa.opcodes h

theorem signature?_insertCall (isa : InstructionSet) (call : Call) (selector : UInt64) :
    (isa.insertCall call).signature? selector =
      if selector = call.selector then some call.signature else isa.signature? selector := by
  rw [signature?, insertCall]
  split
  · next h => simp [h]
  · next h =>
    rw [List.find?_cons_of_neg (by simpa [eq_comm] using h)]
    exact congrArg _ (find?_filter_ne Call.selector isa.calls h)

end InstructionSet

end StackLift
