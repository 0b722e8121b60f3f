import StackLift.Proofs.Rekeying
import StackLift.Proofs.Targets

namespace StackLift

theorem Traced.outcome_bind_map {α β γ δ : Type} {x : Traced α} {y : Traced β} {f : α → Traced γ}
    {g : β → Traced δ} {p : α → β} {q : γ → δ} (h : y.outcome = x.outcome.map p)
    (hrest : ∀ a, (g (p a)).outcome = (f a).outcome.map q) :
    (y >>= g).outcome = (x >>= f).outcome.map q := by
  rw [outcome_bind, outcome_bind, h]
  cases x.outcome with
  | error fault => rfl
  | ok a => exact hrest a

theorem Traced.outcome_bind_map_right {α γ δ : Type} {x : Traced α} {f : α → Traced γ}
    {g : α → Traced δ} {q : γ → δ} (hrest : ∀ a, (g a).outcome = (f a).outcome.map q) :
    (x >>= g).outcome = (x >>= f).outcome.map q := by
  rw [outcome_bind, outcome_bind]
  cases x.outcome with
  | error fault => rfl
  | ok a => exact hrest a

def OffsetMap.map {α β : Type} (f : α → β) (m : OffsetMap α) : OffsetMap β :=
  ⟨m.entries.map fun entry => (entry.1, f entry.2), List.pairwise_map.2 m.ascending⟩

theorem lookupOffset_map {α β : Type} (f : α → β) (a : UInt32) (entries : List (UInt32 × α)) :
    lookupOffset a (entries.map fun entry => (entry.1, f entry.2)) =
      (lookupOffset a entries).map f := by
  induction entries with
  | nil => rfl
  | cons entry rest ih =>
    rw [List.map_cons, lookupOffset, lookupOffset, ih]
    split <;> rfl

theorem OffsetMap.get?_map {α β : Type} (f : α → β) (m : OffsetMap α) (a : UInt32) :
    (m.map f).get? a = (m.get? a).map f :=
  lookupOffset_map f a m.entries

def Frame.mapKey (f : UInt32 → UInt32) (frame : Frame) : Frame :=
  { frame with key := f frame.key }

def Node.mapKey (f : UInt32 → UInt32) (node : Node) : Node :=
  { node with frame := node.frame.mapKey f }

def Export.mapKey (f : UInt32 → UInt32) (entry : Export) : Export :=
  { entry with key := f entry.key }

namespace Graph

variable {f g : UInt32 → UInt32} {graph : Graph}

def mapKeys (f : UInt32 → UInt32) (graph : Graph) : Graph where
  byOffset := graph.byOffset.map (Node.mapKey f)
  offset_eq offset node h := by
    rw [OffsetMap.get?_map] at h
    obtain ⟨old, hold, rfl⟩ := Option.map_eq_some_iff.1 h
    exact graph.offset_eq offset old hold

def keyless (graph : Graph) : Graph :=
  graph.mapKeys fun _ => 0

@[simp] theorem get?_mapKeys (f : UInt32 → UInt32) (graph : Graph) (offset : UInt32) :
    (graph.mapKeys f).get? offset = (graph.get? offset).map (Node.mapKey f) :=
  OffsetMap.get?_map ..

theorem mapKeys_empty (f : UInt32 → UInt32) : empty.mapKeys f = empty :=
  ext_get? fun _ => by rw [get?_mapKeys, get?_empty, Option.map_none]

theorem mapKeys_insert (f : UInt32 → UInt32) (graph : Graph) (node : Node) :
    (graph.insert node).mapKeys f = (graph.mapKeys f).insert (node.mapKey f) := by
  apply ext_get?
  intro offset
  rw [get?_mapKeys, get?_insert, get?_insert, get?_mapKeys, apply_ite (Option.map _)]
  rfl

theorem keyless_mapKeys (f : UInt32 → UInt32) (graph : Graph) :
    (graph.mapKeys f).keyless = graph.keyless := by
  apply ext_get?
  intro offset
  rw [keyless, keyless, get?_mapKeys, get?_mapKeys, get?_mapKeys, Option.map_map]
  rfl

theorem inputSources_mapKeys (f : UInt32 → UInt32) (graph : Graph) (offset : UInt32) :
    (graph.mapKeys f).inputSources offset = graph.inputSources offset := by
  rw [inputSources, inputSources, get?_mapKeys]
  cases graph.get? offset <;> rfl

theorem producers_mapKeys (f : UInt32 → UInt32) (graph : Graph) (v : Provenance) :
    (graph.mapKeys f).producers v = graph.producers v := by
  have hclosure : (graph.mapKeys f).closure v.sources.toList .empty =
      graph.closure v.sources.toList .empty :=
    (closure_congr (P := fun _ => True) (fun _ _ => trivial)
      fun a _ _ => ⟨inputSources_mapKeys f graph a, fun _ _ => trivial⟩).1
  apply producers_congr hclosure
  intro a _
  rw [get?_mapKeys, Option.map_map]
  rfl

end Graph

namespace Frame

variable (f : UInt32 → UInt32)

theorem merge_mapKey (a b : Frame) :
    (a.mapKey f).merge (b.mapKey f) =
      (a.merge b).map fun merged => (merged.1.mapKey f, merged.2) := by
  rw [merge, merge, apply_ite (Except.map _)]
  rfl

theorem setRegister_mapKey (frame : Frame) (r : Register) (v : Provenance) :
    (frame.mapKey f).setRegister r v = (frame.setRegister r v).mapKey f :=
  rfl

theorem take?_mapKey (frame : Frame) (count : Nat) :
    (frame.mapKey f).take? count =
      (frame.take? count).map fun taken => (taken.1, taken.2.mapKey f) := by
  rw [take?, take?, apply_ite (Option.map _)]
  rfl

theorem bindPopped_mapKey (frame : Frame) (i : Instruction) (popped : List Provenance) :
    (frame.mapKey f).bindPopped i popped = (frame.bindPopped i popped).mapKey f := by
  unfold bindPopped
  cases i.poppedRegister? <;> cases popped <;> rfl

theorem effect_mapKey (frame : Frame) (i : Instruction) (signature : Option Signature) :
    (frame.mapKey f).effect i signature =
      (frame.effect i signature).map fun e => ⟨e.popped, e.frame.mapKey f⟩ := by
  rw [effect, effect]
  cases i.opcode.pops.count? signature with
  | none => rfl
  | some count =>
    dsimp only
    by_cases hroom : Reservable count Provenance.byteSize
    case neg =>
      rw [reserve_bind_of_not hroom, reserve_bind_of_not hroom]
      rfl
    rw [reserve_bind hroom, reserve_bind hroom, setRegister_mapKey, take?_mapKey]
    cases (frame.setRegister .ip (.producedBy i.offset .dword)).take? count with
    | none => rfl
    | some taken =>
      dsimp only [Option.map_some]
      rw [bindPopped_mapKey]
      cases i.opcode.pushes.kind? i.opcode.kind signature with
      | none => rfl
      | some kind => cases kind <;> rfl

end Frame

namespace Discovery

variable {d : Discovery} {f : UInt32 → UInt32} {graph : Graph} {node : Node} {frame : Frame}

theorem fold_mapKeys (d : Discovery) (f : UInt32 → UInt32) (graph : Graph) (v : Provenance) :
    d.fold (graph.mapKeys f) v = d.fold graph v := by
  rw [fold, fold, Graph.producers_mapKeys]

theorem resolveCall?_mapKeys (d : Discovery) (f : UInt32 → UInt32) (graph : Graph) (node : Node) :
    d.resolveCall? (graph.mapKeys f) (node.mapKey f) = d.resolveCall? graph node := by
  have hselector : d.selector (graph.mapKeys f) (node.mapKey f) = d.selector graph node := by
    simp only [selector, fold_mapKeys]
    rfl
  rw [resolveCall?, hselector]
  rfl

theorem resolveTarget_mapKeys (d : Discovery) (f : UInt32 → UInt32) (graph : Graph) (node : Node) :
    d.resolveTarget (graph.mapKeys f) (node.mapKey f) = d.resolveTarget graph node := by
  have htarget : d.target (graph.mapKeys f) (node.mapKey f) = d.target graph node := by
    simp only [target, fold_mapKeys]
    rfl
  rw [resolveTarget, htarget]
  rfl

theorem readBytes_rekey {image : Image} {key other : UInt32} (h : foldBytes other = foldBytes key)
    (position n : Nat) : image.readBytes other position n = image.readBytes key position n := by
  induction n generalizing position with
  | zero => rfl
  | succ n ih => simp only [Image.readBytes, Image.plainByte?_rekey h, ih]

theorem image_decode_rekey (image : Image) {key other : UInt32}
    (h : foldBytes other = foldBytes key) (isa : InstructionSet) (position : Nat) :
    image.decode isa other position = image.decode isa key position := by
  simp only [Image.decode, Image.plainByte?_rekey h, readBytes_rekey h]

theorem decode_mapKey (hf : ∀ key, foldBytes (f key) = foldBytes key) (d : Discovery)
    (frame : Frame) : d.decode (frame.mapKey f) = (d.decode frame).map (Node.mapKey f) := by
  have himage := image_decode_rekey d.image (hf frame.key) d.isa frame.ip.toNat
  rw [decode, decode]
  change ((d.image.decode d.isa (f frame.key) frame.ip.toNat).1 >>= fun decoded => _) = _
  rw [himage]
  cases (d.image.decode d.isa frame.key frame.ip.toNat).1 <;> rfl

def mapVisited (f : UInt32 → UInt32) (visited : Graph × List Frame) : Graph × List Frame :=
  (visited.1.mapKeys f, visited.2.map (Frame.mapKey f))

theorem follow_mapKeys (d : Discovery) (f : UInt32 → UInt32) (graph : Graph) (node : Node) :
    (d.follow (graph.mapKeys f) (node.mapKey f)).outcome =
      (d.follow graph node).outcome.map (mapVisited f) := by
  rw [follow, follow, resolveCall?_mapKeys]
  apply Traced.outcome_bind_map_right
  intro call
  apply Traced.outcome_bind_map
  · exact Frame.effect_mapKey f node.frame node.toInstruction (call.map Call.signature)
  intro e
  apply Traced.outcome_bind_map_right
  intro inputs
  dsimp only
  let popped := node.consuming inputs call
  change (d.resolveTarget ((graph.mapKeys f).insert (popped.mapKey f)) (popped.mapKey f) >>=
    _).outcome = (d.resolveTarget (graph.insert popped) popped >>= _).outcome.map _
  rw [← Graph.mapKeys_insert, resolveTarget_mapKeys]
  apply Traced.outcome_bind_map_right
  intro inferred
  let known : Node := { popped with inferred := inferred }
  have hgraph := Graph.mapKeys_insert f graph known
  have hframes : known.successors.reverse.map (e.frame.mapKey f).moveTo =
      (known.successors.reverse.map e.frame.moveTo).map (Frame.mapKey f) := by
    rw [List.map_map]
    rfl
  exact congrArg Except.ok (Prod.ext hgraph.symm hframes)

theorem visit_mapKeys (hf : ∀ key, foldBytes (f key) = foldBytes key) (d : Discovery)
    (graph : Graph) (frame : Frame) :
    (d.visit (graph.mapKeys f) (frame.mapKey f)).outcome =
      (d.visit graph frame).outcome.map (mapVisited f) := by
  have hget : (graph.mapKeys f).get? (frame.mapKey f).ip = (graph.get? frame.ip).map _ :=
    graph.get?_mapKeys f frame.ip
  rw [visit, visit, hget]
  cases graph.get? frame.ip with
  | none =>
    apply Traced.outcome_bind_map
    · exact decode_mapKey hf d frame
    intro node
    apply Traced.outcome_bind_map_right
    intro _
    rw [← Graph.mapKeys_insert]
    exact follow_mapKeys d f (graph.insert node) node
  | some node =>
    apply Traced.outcome_bind_map
    · exact Frame.merge_mapKey f node.frame frame
    rintro ⟨merged, grew⟩
    cases grew with
    | false => rfl
    | true =>
      apply Traced.outcome_bind_map_right
      intro _
      let node : Node := { node with frame := merged }
      change (d.follow ((graph.mapKeys f).insert (node.mapKey f)) (node.mapKey f)).outcome = _
      rw [← Graph.mapKeys_insert]
      exact follow_mapKeys d f (graph.insert node) node

theorem run_mapKeys (hf : ∀ key, foldBytes (f key) = foldBytes key) (d : Discovery)
    (graph : Graph) (agenda : List Frame) :
    (d.run (graph.mapKeys f) (agenda.map (Frame.mapKey f))).outcome =
      (d.run graph agenda).outcome.map (Graph.mapKeys f) := by
  fun_induction d.run graph agenda with
  | case1 graph => rw [List.map_nil, run_nil]; rfl
  | case2 graph frame rest fault events hvisit =>
    have hmapped := visit_mapKeys hf d graph frame
    rw [hvisit] at hmapped
    rw [List.map_cons, run_cons, Traced.outcome_bind, hmapped]
    rfl
  | case3 graph frame rest next frames events hvisit final ih =>
    have hmapped := visit_mapKeys hf d graph frame
    rw [hvisit] at hmapped
    rw [List.map_cons, run_cons, Traced.outcome_bind, hmapped]
    change (d.run (next.mapKeys f) (frames.map _ ++ rest.map _)).outcome = _
    rw [← List.map_append, ih]

theorem enterAll_mapKeys (hf : ∀ key, foldBytes (f key) = foldBytes key) (d : Discovery)
    (graph : Graph) (exports : List Export) :
    (d.enterAll (graph.mapKeys f) (exports.map (Export.mapKey f))).outcome =
      (d.enterAll graph exports).outcome.map (Graph.mapKeys f) := by
  induction exports generalizing graph with
  | nil => rfl
  | cons entry rest ih =>
    have hrun := run_mapKeys hf d graph [.start entry.offset entry.key]
    rw [List.map_cons, outcome_enterAll_cons, outcome_enterAll_cons]
    change ((d.run (graph.mapKeys f) _).outcome >>= _) = _
    rw [show [Frame.start (Export.mapKey f entry).offset (Export.mapKey f entry).key] =
      [Frame.start entry.offset entry.key].map (Frame.mapKey f) from rfl, hrun]
    cases (d.run graph [.start entry.offset entry.key]).outcome with
    | error fault => rfl
    | ok next => exact ih next

/-- Under keys that fold alike the discovery fails alike, or finds the same graph but for them. -/
theorem discover_mapKeys (hf : ∀ key, foldBytes (f key) = foldBytes key) (d : Discovery)
    (exports : List Export) :
    (d.discover (exports.map (Export.mapKey f))).outcome =
      (d.discover exports).outcome.map (Graph.mapKeys f) := by
  rw [outcome_discover, outcome_discover, ← enterAll_mapKeys hf, Graph.mapKeys_empty]

/-- The least key of those that fold alike. -/
def reduceKey (key : UInt32) : UInt32 :=
  (foldBytes key).toUInt32

theorem foldBytes_reduceKey (key : UInt32) : foldBytes (reduceKey key) = foldBytes key := by
  have hsmall : ∀ byte : UInt8, foldBytes byte.toUInt32 = byte := by decide +kernel
  exact hsmall _

theorem keyless_discover (d : Discovery) {exports others : List Export}
    (h : List.Forall₂ (fun entry other => other.offset = entry.offset ∧
      foldBytes other.key = foldBytes entry.key) exports others) :
    (d.discover others).outcome.map Graph.keyless =
      (d.discover exports).outcome.map Graph.keyless := by
  have hreduced : others.map (Export.mapKey reduceKey) = exports.map (Export.mapKey reduceKey) := by
    induction h with
    | nil => rfl
    | @cons entry other _ _ halike _ ih =>
      rw [List.map_cons, List.map_cons, ih, Export.mapKey, Export.mapKey, halike.1, reduceKey,
        halike.2, reduceKey]
  have hkeyless : ∀ exports, (d.discover exports).outcome.map Graph.keyless =
      (d.discover (exports.map (Export.mapKey reduceKey))).outcome.map Graph.keyless := by
    intro exports
    rw [discover_mapKeys foldBytes_reduceKey]
    cases (d.discover exports).outcome with
    | error fault => rfl
    | ok graph => exact congrArg Except.ok (Graph.keyless_mapKeys _ graph).symm
  rw [hkeyless others, hreduced, ← hkeyless exports]

end Discovery

/-- The export is the same, or its key is the other of two. -/
def Export.Swaps (key other : UInt32) (entry replaced : Export) : Prop :=
  replaced = entry ∨ entry.key = key ∧ replaced = ⟨entry.offset, other⟩

theorem Export.Swaps.alike {key other : UInt32} {entry replaced : Export}
    (h : Swaps key other entry replaced) (hfold : foldBytes key = foldBytes other) :
    replaced.offset = entry.offset ∧ foldBytes replaced.key = foldBytes entry.key := by
  obtain rfl | ⟨rfl, rfl⟩ := h
  · exact ⟨rfl, rfl⟩
  · exact ⟨rfl, hfold.symm⟩

/-- The masks of two keys differ by what the keys fold to. If they fold alike, they are
interchangeable: the same edits are answered alike and leave the same code, and a discovery fails
alike or finds the same graph but for its keys, whichever exports have the one replaced by the
other. Otherwise the codes that the same edits leave differ in every byte. -/
theorem interchangeable_iff_foldBytes_eq (key other : UInt32) :
    (∀ position, byteMask key position ^^^ byteMask other position =
      foldBytes key ^^^ foldBytes other) ∧
    (foldBytes key = foldBytes other →
      (∀ (isa : InstructionSet) (edits : List Edit), (∀ e ∈ edits, e.KeepsKey) →
        ((Assembler.start isa other).makeAll edits).1 =
            ((Assembler.start isa key).makeAll edits).1 ∧
          ((Assembler.start isa other).makeAll edits).2.code =
            ((Assembler.start isa key).makeAll edits).2.code) ∧
      ∀ (d : Discovery) (exports replaced : List Export),
        List.Forall₂ (Export.Swaps key other) exports replaced →
        (d.discover replaced).outcome.map Graph.keyless =
          (d.discover exports).outcome.map Graph.keyless) ∧
    (foldBytes key ≠ foldBytes other →
      ∀ (isa : InstructionSet) (edits : List Edit), (∀ e ∈ edits, e.KeepsKey) →
        ((Assembler.start isa other).makeAll edits).2.code.size =
            ((Assembler.start isa key).makeAll edits).2.code.size ∧
          ∀ position < ((Assembler.start isa key).makeAll edits).2.code.size,
            ((Assembler.start isa other).makeAll edits).2.code[position]? ≠
              ((Assembler.start isa key).makeAll edits).2.code[position]?) := by
  refine ⟨byteMask_xor_byteMask key other, fun hfold => ⟨?_, ?_⟩, ?_⟩
  · intro isa edits hedits
    obtain ⟨hanswers, hcode⟩ := Assembler.makeAll_start isa key other hedits
    rw [hfold, UInt8.xor_self, Image.shift_zero] at hcode
    exact ⟨hanswers, hcode⟩
  · intro d exports replaced hswaps
    exact d.keyless_discover (hswaps.imp fun _ _ h => h.alike hfold)
  · intro hfold isa edits hedits
    obtain ⟨_, hcode⟩ := Assembler.makeAll_start isa key other hedits
    rw [hcode]
    refine ⟨Image.size_shift _ _, fun position hposition hsame => hfold ?_⟩
    rw [Image.getElem?_shift, Array.getElem?_eq_getElem hposition, Option.map_some,
      Option.some.injEq] at hsame
    have hzero := (UInt8.xor_right_inj _).1 (hsame.trans UInt8.xor_zero.symm)
    exact UInt8.xor_eq_zero_iff.1 hzero

/-- The keys `0x1` and `0x100` are interchangeable, and the key 0 is no third of them. -/
theorem adjoining_interchangeable :
    foldBytes 0x1 = foldBytes 0x100 ∧
      (Discovery.adjoining.discover [⟨1, 0⟩, ⟨0, 0x100⟩]).outcome.map Graph.keyless =
        (Discovery.adjoining.discover [⟨1, 0⟩, ⟨0, 0x1⟩]).outcome.map Graph.keyless ∧
      foldBytes 0 ≠ foldBytes 0x100 ∧
      ((Assembler.start .reference 0x100).makeAll [.emit 0x34 .none]).2.code[0]? ≠
        ((Assembler.start .reference 0).makeAll [.emit 0x34 .none]).2.code[0]? := by
  have halike : foldBytes 0x1 = foldBytes 0x100 := by decide
  have hdiffer : foldBytes 0 ≠ foldBytes 0x100 := by decide
  have hdiscover := ((interchangeable_iff_foldBytes_eq 0x1 0x100).2.1 halike).2 Discovery.adjoining
    [⟨1, 0⟩, ⟨0, 0x1⟩] [⟨1, 0⟩, ⟨0, 0x100⟩] (.cons (.inl rfl) (.cons (.inr ⟨rfl, rfl⟩) .nil))
  have hedits : ∀ e ∈ [Edit.emit 0x34 .none], e.KeepsKey := by
    intro e he
    rw [List.mem_singleton.1 he]
    trivial
  have hcode := ((interchangeable_iff_foldBytes_eq 0 0x100).2.2 hdiffer .reference _ hedits).2 0
  exact ⟨halike, hdiscover, hdiffer, hcode (by decide)⟩

end StackLift
