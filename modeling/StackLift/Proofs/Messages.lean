import StackLift.Proofs.Reporting
import StackLift.Proofs.Words

namespace StackLift

def Traced.log {α : Type} (x : Traced α) : List (Severity × String) :=
  x.events.map Event.toRecord

def messages (log : List (Severity × String)) (severity : Severity) (opening : String) :
    List String :=
  (log.filter fun record => record.1 = severity && record.2.startsWith opening).map Prod.snd

theorem messages_eq {severity : Severity} {opening : String} {p : Event → Bool}
    (h : ∀ event : Event,
      (decide (event.severity = severity) && event.message.startsWith opening) = p event)
    (events : List Event) :
    messages (events.map Event.toRecord) severity opening =
      (events.filter p).map Event.message := by
  rw [messages, List.filter_map, List.map_map]
  congr 1
  exact List.filter_congr fun event _ => h event

theorem isWord_offsetText (offset : UInt32) : isWord (offsetText offset) = true :=
  isWord_hexPrefixed 6 offset.toNat

theorem offsetText_injective : Function.Injective offsetText := fun _ _ h =>
  UInt32.toNat_inj.1 (hexPrefixed_injective 6 h)

section

variable {offset other : UInt32} {opening rest : String} {c : Char} {l : List Char}

theorem endsWord_toList_append (hopening : opening.toList = c :: l) (hc : inWord c = false) :
    EndsWord (opening ++ rest).toList := by
  rw [String.toList_append, hopening]
  exact endsWord_cons hc

/-- A message that begins with an offset is about that offset. -/
theorem startsWith_offsetText_iff (hopening : opening.toList = c :: l) (hc : inWord c = false)
    (hrest : EndsWord rest.toList) :
    (offsetText other ++ rest).startsWith (offsetText offset ++ opening) = true ↔
      other = offset ∧ opening.toList <+: rest.toList := by
  rw [String.startsWith_string_iff, String.toList_append, String.toList_append]
  constructor
  · rintro ⟨behind, h⟩
    rw [List.append_assoc] at h
    have hends : EndsWord (opening.toList ++ behind) := by
      rw [hopening]
      exact endsWord_cons hc
    obtain ⟨hoffset, hbehind⟩ := eq_of_word_append_eq (isWord_offsetText offset)
      (isWord_offsetText other) hends hrest h
    exact ⟨offsetText_injective hoffset.symm, behind, hbehind⟩
  · rintro ⟨rfl, h⟩
    exact (List.prefix_append_right_inj _).2 h

theorem startsWith_offsetText_append (hopening : opening.toList = c :: l)
    (hc : inWord c = false) :
    (offsetText other ++ (opening ++ rest)).startsWith (offsetText offset ++ opening) =
      decide (other = offset) := by
  rw [Bool.eq_iff_iff, decide_eq_true_iff,
    startsWith_offsetText_iff hopening hc (endsWord_toList_append hopening hc),
    String.toList_append, and_iff_left (List.prefix_append _ _)]

theorem startsWith_offsetText_eq_false {s : String} (hs : s.toList.head? = some c) (hc : c ≠ '0') :
    (s ++ rest).startsWith (offsetText offset ++ opening) = false := by
  rw [Bool.eq_false_iff, Ne, String.startsWith_string_iff]
  rintro ⟨behind, h⟩
  have hhead : (s ++ rest).toList.head? = some c := by
    rw [String.toList_append, List.head?_append, hs]
    rfl
  rw [← h] at hhead
  simp only [offsetText, hexPrefixed, String.toList_append, List.append_assoc] at hhead
  exact hc (Option.some.inj hhead).symm

end

namespace Event

def resolves (offset : UInt32) : Event → Bool
  | .targetResolved source _ => source = offset
  | _ => false

def gains (offset : UInt32) : Event → Bool
  | .targetGained source _ => source = offset
  | _ => false

theorem decodes_eq (offset : UInt32) (event : Event) :
    (decide (event.severity = .debug) && event.message.startsWith (offsetText offset ++ ": ")) =
      event.decodes offset := by
  cases event with
  | entered | targetResolved | discovered | built | targetGained | failed => rfl
  | frameChanged source =>
    change ("state at " ++ _ ++ _).startsWith _ = false
    simp only [String.append_assoc]
    exact startsWith_offsetText_eq_false (c := 's') (by simp) (by decide)
  | variableIntroduced =>
    change ("introducing " ++ _ ++ _ ++ _ ++ _).startsWith _ = false
    simp only [String.append_assoc]
    exact startsWith_offsetText_eq_false (c := 'i') (by simp) (by decide)
  | callResolved source signature =>
    change (offsetText source ++ " calls " ++ _ ++ _ ++ _ ++ _).startsWith _ = false
    simp only [String.append_assoc]
    have hends (rest : String) : EndsWord (" calls " ++ rest).toList :=
      endsWord_toList_append (c := ' ') (l := "calls ".toList) (by simp) (by decide)
    rw [Bool.eq_false_iff, Ne,
      startsWith_offsetText_iff (c := ':') (l := [' ']) (by simp) (by decide) (hends _)]
    simp
  | decoded i =>
    change (offsetText i.offset ++ ": " ++ _ ++ _ ++ _).startsWith _ = decide (i.offset = offset)
    simp only [String.append_assoc]
    exact startsWith_offsetText_append (c := ':') (l := [' ']) (by simp) (by decide)

theorem resolves_eq (offset : UInt32) (event : Event) :
    (decide (event.severity = .info) &&
      event.message.startsWith (offsetText offset ++ " jumps to ")) = event.resolves offset := by
  cases event with
  | decoded | frameChanged | callResolved | variableIntroduced | targetGained | failed => rfl
  | entered source =>
    change ("disassembling export at " ++ _ ++ _ ++ _ ++ _).startsWith _ = false
    simp only [String.append_assoc]
    exact startsWith_offsetText_eq_false (c := 'd') (by simp) (by decide)
  | discovered =>
    change ("discovered " ++ _ ++ _).startsWith _ = false
    simp only [String.append_assoc]
    exact startsWith_offsetText_eq_false (c := 'd') (by simp) (by decide)
  | built =>
    change ("built " ++ _ ++ _ ++ _ ++ _ ++ _).startsWith _ = false
    simp only [String.append_assoc]
    exact startsWith_offsetText_eq_false (c := 'b') (by simp) (by decide)
  | targetResolved source target =>
    change (offsetText source ++ " jumps to " ++ _).startsWith _ = decide (source = offset)
    simp only [String.append_assoc]
    exact startsWith_offsetText_append (c := ' ') (l := "jumps to ".toList) (by simp) (by decide)

theorem gains_eq (offset : UInt32) (event : Event) :
    (decide (event.severity = .warning) &&
      event.message.startsWith (offsetText offset ++ " gained jump target ")) =
      event.gains offset := by
  cases event with
  | entered | decoded | frameChanged | callResolved | targetResolved | variableIntroduced
  | discovered | built | failed => rfl
  | targetGained source target =>
    change (offsetText source ++ " gained jump target " ++ _ ++ _).startsWith _ =
      decide (source = offset)
    simp only [String.append_assoc]
    exact startsWith_offsetText_append (c := ' ') (l := "gained jump target ".toList) (by simp)
      (by decide)

end Event

theorem filter_resolves (log : List Event) (offset : UInt32) :
    log.filter (Event.resolves offset) =
      (log.filter (Event.aims offset)).filter (Event.resolves offset) := by
  rw [List.filter_filter]
  apply List.filter_congr
  intro event _
  cases event <;> simp [Event.resolves, Event.aims]

theorem filter_gains (log : List Event) (offset : UInt32) :
    log.filter (Event.gains offset) =
      (log.filter (Event.aims offset)).filter (Event.gains offset) := by
  rw [List.filter_filter]
  apply List.filter_congr
  intro event _
  cases event <;> simp [Event.gains, Event.aims]

/-- Of the targets of an instruction one is told as the first, and each of the others once. -/
theorem Inferred.Told.exists_perm {offset : UInt32} {node : Node} {told : List Event}
    (h : node.inferred.Told offset told) (hne : node.targets ≠ []) :
    ∃ first others, (first :: others).Perm node.targets ∧
      told.filter (Event.resolves offset) = [.targetResolved offset first] ∧
      told.filter (Event.gains offset) = others.map (.targetGained offset) := by
  rw [Node.targets] at hne ⊢
  generalize node.inferred = inferred at h hne ⊢
  cases h with
  | nothing | call => exact absurd rfl hne
  | @targets targets first others hperm =>
    refine ⟨first, others, hperm, ?_, ?_⟩
    · rw [List.filter_cons_of_pos (by simp [Event.resolves]), List.filter_eq_nil_iff.2]
      intro event hevent
      obtain ⟨target, _, rfl⟩ := List.mem_map.1 hevent
      simp [Event.resolves]
    · rw [List.filter_cons_of_neg (by simp [Event.gains]), List.filter_eq_self]
      intro event hevent
      obtain ⟨target, _, rfl⟩ := List.mem_map.1 hevent
      simp [Event.gains]

/-- The log accounts for the graph. Every offset of the graph, and no other, is decoded in one
message. Of the targets of a control transfer one is told in a message of its own, and the others in
one warning each. There is no error, and the size of the graph is told at last. -/
structure Graph.Logged (graph : Graph) (log : List (Severity × String)) : Prop where
  decoded : ∀ offset, messages log .debug (offsetText offset ++ ": ") =
    ((graph.get? offset).map fun node =>
      offsetText offset ++ ": " ++ node.opcode.mnemonic ++ " " ++ node.operand.text).toList
  targets : ∀ offset node, graph.get? offset = some node → node.opcode.transfersControl = true →
    ∃ first others, (first :: others).Perm node.targets ∧
      messages log .info (offsetText offset ++ " jumps to ") =
        [offsetText offset ++ " jumps to " ++ offsetText first] ∧
      messages log .warning (offsetText offset ++ " gained jump target ") =
        others.map fun target =>
          offsetText offset ++ " gained jump target " ++ offsetText target ++ " after a merge"
  quiet : ∀ record ∈ log, record.1 ≠ .error
  last : log.getLast? =
    some (.info, "discovered " ++ Nat.repr graph.size ++ " instructions")

namespace Discovery

variable {d : Discovery} {exports : List Export} {graph : Graph} {s : Search}

theorem Passes.targets_ne_nil (h : d.Passes exports s) :
    ∀ offset node, s.graph.get? offset = some node → node.opcode.transfersControl = true →
      node.targets ≠ [] := by
  apply h.forall_nodes (P := fun _ node => node.opcode.transfersControl = true →
    node.targets ≠ []) (fun _ hp => hp)
  intro graph next frame frames rest node known call e _ _ _ _ hknown _ htransfers
  rw [hknown.toInstruction_eq] at htransfers
  obtain ⟨target, _, htarget, _⟩ := resolveTarget_cases hknown.inferred htransfers
  have hmem : target ∈ known.targets := by
    rw [hknown.eq]
    exact htarget
  exact List.ne_nil_of_mem hmem

theorem quiet_log {log : List Event} (h : Quiet log) :
    ∀ record ∈ log.map Event.toRecord, record.1 ≠ .error := by
  intro record hrecord
  obtain ⟨event, hevent, rfl⟩ := List.mem_map.1 hrecord
  exact h event hevent

theorem logged_of_discover (hisa : d.isa.CallsReturn)
    (h : (d.discover exports).outcome = .ok graph) : graph.Logged (d.discover exports).log := by
  obtain ⟨reported, hreports, hevents⟩ := reports_of_discover h
  have haccounts := hreports.accounts hisa
  constructor
  · intro offset
    rw [Traced.log, messages_eq (Event.decodes_eq offset), hevents, List.filter_append,
      List.filter_cons_of_neg (by simp [Event.decodes]), List.filter_nil, List.append_nil]
    have haccount := haccounts offset
    cases hnode : graph.get? offset with
    | none =>
      rw [hnode] at haccount
      cases haccount with | missing hnone _ => ?_
      rw [hnone]
      rfl
    | some node =>
      rw [hnode] at haccount
      cases haccount with | found hone _ => ?_
      rw [hone, ← Graph.offset_of_get? hnode]
      rfl
  · intro offset node hnode htransfers
    have haccount := haccounts offset
    rw [hnode] at haccount
    cases haccount with | found _ htold => ?_
    obtain ⟨first, others, hperm, hresolves, hgains⟩ :=
      htold.exists_perm (hreports.passes.targets_ne_nil offset node hnode htransfers)
    refine ⟨first, others, hperm, ?_, ?_⟩
    · rw [Traced.log, messages_eq (Event.resolves_eq offset), hevents, List.filter_append,
        filter_resolves, hresolves]
      rfl
    · rw [Traced.log, messages_eq (Event.gains_eq offset), hevents, List.filter_append,
        filter_gains, hgains, List.filter_cons_of_neg (by simp [Event.gains]), List.filter_nil,
        List.append_nil, List.map_map]
      rfl
  · exact quiet_log ((d.discover_failsLast exports).quiet graph h)
  · rw [Traced.log, hevents, List.map_append, List.getLast?_append]
    rfl

/-- The log of a discovery is a faithful account. If the discovery gives a graph the log accounts
for it, and otherwise the failure is the only error in the log and the last message. A panic is no
failure that the discovery returns, and leaves no error in the log. -/
theorem discover_log (hisa : d.isa.CallsReturn) :
    (∀ graph, (d.discover exports).outcome = .ok graph →
      graph.Logged (d.discover exports).log) ∧
    (∀ fault, (d.discover exports).outcome = .error fault → fault ≠ .capacityOverflow →
      ∃ before, (d.discover exports).log = before ++ [(.error, fault.message)] ∧
        ∀ record ∈ before, record.1 ≠ .error) ∧
    ((d.discover exports).outcome = .error .capacityOverflow →
      (∃ call ∈ d.isa.calls, ¬call.signature.HasRoom) ∧
        ∀ record ∈ (d.discover exports).log, record.1 ≠ .error) := by
  have hfails := d.discover_failsLast exports
  refine ⟨fun graph h => logged_of_discover hisa h, ?_, fun h => ⟨?_, quiet_log (hfails.panic h)⟩⟩
  · intro fault h hreturned
    obtain ⟨before, hevents, hquiet⟩ := hfails.last fault h hreturned
    refine ⟨before.map Event.toRecord, ?_, quiet_log hquiet⟩
    rw [Traced.log, hevents, List.map_append]
    rfl
  · exact exists_call_of_discover h

/-- `PUSHI_DWORD 0; PUSHI_DWORD 22; JZ; PUSHI_DWORD 28; PUSHI_DWORD 27; JMP`, at 22
`PUSHI_DWORD 29` and at 27 `JMP; RET; RET`. The last jump is reached with 28 and then with 29. -/
def gaining : Discovery :=
  ⟨(maskBytes 0 0 [0x04, 0, 0, 0, 0, 0x04, 22, 0, 0, 0, 0x31, 0x04, 28, 0, 0, 0, 0x04, 27, 0, 0, 0,
      0x30, 0x04, 29, 0, 0, 0, 0x30, 0x34, 0x34]).toArray, .reference, .ofPresets []⟩

/-- With a second export behind the end of the code the discovery fails. -/
theorem gaining_log :
    gaining.isa.CallsReturn ∧
    (∃ graph, (gaining.discover [⟨0, 0⟩]).outcome = .ok graph ∧
      (graph.get? 27).map (fun node => (node.opcode.transfersControl, node.targets)) =
        some (true, [28, 29]) ∧
      graph.Logged (gaining.discover [⟨0, 0⟩]).log) ∧
    (gaining.discover [⟨0, 0⟩, ⟨30, 0⟩]).outcome = .error (.outOfBounds 30) ∧
    ∃ before, (gaining.discover [⟨0, 0⟩, ⟨30, 0⟩]).log =
        before ++ [(.error, "read past the end of the image at " ++ offsetText 30)] ∧
      ∀ record ∈ before, record.1 ≠ .error := by
  have hisa : gaining.isa.CallsReturn := InstructionSet.reference_callsReturn
  have hrun : (gaining.discoverWithin 40 [⟨0, 0⟩]).map (fun outcome => outcome.map fun graph =>
      (graph.get? 27).map fun node => (node.opcode.transfersControl, node.targets)) =
      some (.ok (some (true, [28, 29]))) := by cbv
  have hfails : gaining.discoverWithin 40 [⟨0, 0⟩, ⟨30, 0⟩] = some (.error (.outOfBounds 30)) := by
    cbv
  obtain ⟨graph, hgraph, hjump⟩ := exists_discovered _ hrun
  have hfault := outcome_discover_of_discoverWithin hfails
  exact ⟨hisa, ⟨graph, hgraph, hjump, (discover_log hisa).1 graph hgraph⟩, hfault,
    (discover_log hisa).2.1 _ hfault (by decide)⟩

end Discovery

end StackLift
