import StackLift.Proofs.Calls

namespace StackLift

namespace Traced

variable {α β : Type} {x : Traced α} {f : α → Traced β} {event : Event}

theorem events_bind_of_ok (f : α → Traced β) {a : α} (h : x.outcome = .ok a) :
    (x >>= f).events = x.events ++ (f a).events := by
  rw [bind_of_ok f h]

theorem mem_events_bind (h : event ∈ (x >>= f).events) :
    event ∈ x.events ∨ ∃ a, x.outcome = .ok a ∧ event ∈ (f a).events := by
  cases hx : x.outcome with
  | error fault =>
    rw [bind_of_error f hx] at h
    exact .inl h
  | ok a =>
    rw [bind_of_ok f hx] at h
    exact (List.mem_append.1 h).imp_right fun h => ⟨a, rfl, h⟩

theorem mem_events_ofExcept_bind {outcome : Except Fault α}
    (h : event ∈ (ofExcept outcome >>= f).events) :
    ∃ a, outcome = .ok a ∧ event ∈ (f a).events :=
  (mem_events_bind h).resolve_left List.not_mem_nil

theorem mem_events_report_bind {first : Event} {f : Unit → Traced β}
    (h : event ∈ (report first >>= f).events) : event = first ∨ event ∈ (f ()).events := by
  rw [events_bind_of_ok f (outcome_report first)] at h
  exact List.mem_cons.1 h

end Traced

def Quiet (log : List Event) : Prop :=
  ∀ event ∈ log, event.severity ≠ .error

theorem Quiet.append {log log' : List Event} (h : Quiet log) (h' : Quiet log') :
    Quiet (log ++ log') :=
  fun event hevent => (List.mem_append.1 hevent).elim (h event) (h' event)

namespace Traced

variable {α β : Type} {x : Traced α}

/-- A failure is reported, after everything else, and no other error is. A panic is not reported. -/
structure FailsLast (x : Traced α) : Prop where
  quiet : ∀ a, x.outcome = .ok a → Quiet x.events
  panic : x.outcome = .error .capacityOverflow → Quiet x.events
  last : ∀ fault, x.outcome = .error fault → fault ≠ .capacityOverflow →
    ∃ before, x.events = before ++ [.failed fault] ∧ Quiet before

theorem failsLast_of_ok {a : α} (h : x.outcome = .ok a) (hquiet : Quiet x.events) :
    x.FailsLast where
  quiet _ _ := hquiet
  panic _ := hquiet
  last fault hfault := by
    rw [h] at hfault
    cases hfault

theorem failsLast_pure (a : α) : (pure a : Traced α).FailsLast :=
  failsLast_of_ok rfl fun _ hevent => (List.not_mem_nil hevent).elim

theorem failsLast_report {event : Event} (h : event.severity ≠ .error) :
    (report event).FailsLast := by
  apply failsLast_of_ok rfl
  intro other hother
  rw [List.mem_singleton.1 hother]
  exact h

theorem reportFailure_of_ok {a : α} (h : x.outcome = .ok a) : x.reportFailure = x := by
  rw [reportFailure, h]

theorem failsLast_reportFailure (h : Quiet x.events) : x.reportFailure.FailsLast := by
  rw [reportFailure]
  split
  · next a ha => exact failsLast_of_ok ha h
  · next hpanic =>
    constructor
    · exact fun _ _ => h
    · exact fun _ => h
    · intro fault hfault hne
      rw [hpanic] at hfault
      exact absurd (Except.error.inj hfault).symm hne
  · next fault hreported hfault =>
    constructor
    · intro a ha
      rw [hfault] at ha
      cases ha
    · intro hpanic
      exact absurd (Except.error.inj (hfault.symm.trans hpanic)) hreported
    · intro fault' hfault' _
      obtain rfl := Except.error.inj (hfault.symm.trans hfault')
      exact ⟨x.events, rfl, h⟩

theorem FailsLast.bind (hx : x.FailsLast) {f : α → Traced β} (hf : ∀ a, (f a).FailsLast) :
    (x >>= f).FailsLast := by
  cases ha : x.outcome with
  | error fault =>
    rw [bind_of_error f ha]
    refine ⟨fun _ h => (nomatch h), ?_, ?_⟩
    · intro hpanic
      cases hpanic
      exact hx.panic ha
    · intro fault' hfault'
      cases hfault'
      exact hx.last fault ha
  | ok a =>
    rw [bind_of_ok f ha]
    have hbefore := hx.quiet a ha
    constructor
    · exact fun b hb => hbefore.append ((hf a).quiet b hb)
    · exact fun hpanic => hbefore.append ((hf a).panic hpanic)
    · intro fault hfault hne
      obtain ⟨before, hevents, hquiet⟩ := (hf a).last fault hfault hne
      exact ⟨x.events ++ before, by rw [hevents, List.append_assoc], hbefore.append hquiet⟩

end Traced

namespace Event

def decodes (offset : UInt32) : Event → Bool
  | .decoded i => i.offset = offset
  | _ => false

def aims (offset : UInt32) : Event → Bool
  | .targetResolved source _ => source = offset
  | .targetGained source _ => source = offset
  | _ => false

end Event

/-- What is reported of the targets of the instruction at an offset: nothing while there are none,
then the first one as resolved and the others as gained. -/
inductive Inferred.Told (offset : UInt32) : Inferred → List Event → Prop
  | nothing : Told offset .nothing []
  | call {call} : Told offset (.call call) []
  | targets {targets first others} : (first :: others).Perm targets.toList →
      Told offset (.targets targets)
        (.targetResolved offset first :: others.map (.targetGained offset))

/-- The reports account for what stands at an offset: its instruction is decoded once, and its
targets are told. -/
inductive Accounts (log : List Event) (offset : UInt32) : Option Node → Prop
  | missing : log.filter (Event.decodes offset) = [] → log.filter (Event.aims offset) = [] →
      Accounts log offset none
  | found {node} : log.filter (Event.decodes offset) = [.decoded node.toInstruction] →
      node.inferred.Told offset (log.filter (Event.aims offset)) →
      Accounts log offset (some node)

theorem Accounts.congr {log log' : List Event} {offset : UInt32} {node? : Option Node}
    (h : Accounts log offset node?)
    (hdecodes : log'.filter (Event.decodes offset) = log.filter (Event.decodes offset))
    (haims : log'.filter (Event.aims offset) = log.filter (Event.aims offset)) :
    Accounts log' offset node? := by
  cases h with
  | missing hnone hnowhere => exact .missing (hdecodes.trans hnone) (haims.trans hnowhere)
  | found hone htold => exact .found (hdecodes.trans hone) (haims ▸ htold)

theorem OffsetSet.perm_insert {targets : OffsetSet} {target : UInt32} (h : target ∉ targets) :
    (target :: targets.toList).Perm (targets.insert target).toList := by
  have hnodup : ∀ s : OffsetSet, s.toList.Nodup := fun s =>
    s.ascending.imp UInt32.ne_of_lt
  rw [List.perm_ext_iff_of_nodup (List.nodup_cons.2 ⟨h, hnodup _⟩) (hnodup _)]
  intro a
  rw [List.mem_cons]
  exact OffsetSet.mem_insert.symm

namespace Discovery

variable {d : Discovery} {exports : List Export} {graph next : Graph} {frame : Frame}
  {frames : List Frame} {node known : Node} {call : Option Call} {e : Effect} {event : Event}
  {reported : List Event} {offset target : UInt32} {inferred : Inferred}

theorem mem_events_resolveCall? (h : event ∈ (d.resolveCall? graph node).events) :
    ∃ signature, event = .callResolved node.offset signature := by
  rw [resolveCall?] at h
  split at h
  · split at h
    · obtain ⟨selector, _, h⟩ := Traced.mem_events_ofExcept_bind h
      obtain ⟨service, _, h⟩ := Traced.mem_events_ofExcept_bind h
      obtain rfl | h := Traced.mem_events_report_bind h
      · exact ⟨_, rfl⟩
      · cases h
    · cases h
  · cases h

theorem mem_events_gainTarget (h : event ∈ (gainTarget offset target inferred).events) :
    ∃ t, event = .targetResolved offset t ∨ event = .targetGained offset t := by
  cases inferred with
  | nothing | call => exact ⟨target, .inl (List.mem_singleton.1 h)⟩
  | targets targets =>
    rw [gainTarget] at h
    split at h
    · cases h
    · exact ⟨target, .inr (List.mem_singleton.1 h)⟩

theorem mem_events_resolveTarget (h : event ∈ (d.resolveTarget graph node).events) :
    ∃ t, event = .targetResolved node.offset t ∨ event = .targetGained node.offset t := by
  rw [resolveTarget] at h
  split at h
  · obtain ⟨_, _, h⟩ := Traced.mem_events_ofExcept_bind h
    exact mem_events_gainTarget h
  · cases h

theorem mem_events_follow (h : event ∈ (d.follow graph node).events) :
    (∃ signature, event = .callResolved node.offset signature) ∨
      ∃ t, event = .targetResolved node.offset t ∨ event = .targetGained node.offset t := by
  obtain h | ⟨_, _, h⟩ := Traced.mem_events_bind h
  · exact .inl (mem_events_resolveCall? h)
  · obtain ⟨_, _, h⟩ := Traced.mem_events_ofExcept_bind h
    obtain ⟨_, _, h⟩ := Traced.mem_events_ofExcept_bind h
    obtain h | ⟨_, _, h⟩ := Traced.mem_events_bind h
    · obtain ⟨t, ht⟩ := mem_events_resolveTarget h
      exact .inr ⟨t, ht⟩
    · cases h

theorem quiet_follow (d : Discovery) (graph : Graph) (node : Node) :
    Quiet (d.follow graph node).events := by
  intro event h
  rcases mem_events_follow h with ⟨_, rfl⟩ | ⟨_, rfl | rfl⟩ <;> simp [Event.severity]

theorem quiet_visit (d : Discovery) (graph : Graph) (frame : Frame) :
    Quiet (d.visit graph frame).events := by
  intro event h
  rw [visit] at h
  split at h
  · obtain ⟨⟨merged, grew⟩, _, h⟩ := Traced.mem_events_ofExcept_bind h
    cases grew with
    | false => cases h
    | true =>
      obtain rfl | h := Traced.mem_events_report_bind h
      · simp [Event.severity]
      · exact d.quiet_follow _ _ event h
  · obtain ⟨_, _, h⟩ := Traced.mem_events_ofExcept_bind h
    obtain rfl | h := Traced.mem_events_report_bind h
    · simp [Event.severity]
    · exact d.quiet_follow _ _ event h

theorem quiet_run (d : Discovery) (graph : Graph) (agenda : List Frame) :
    Quiet (d.run graph agenda).events := by
  fun_induction d.run graph agenda with
  | case1 =>
    intro event hevent
    cases hevent
  | case2 graph frame rest fault events hvisit =>
    have hquiet := d.quiet_visit graph frame
    rwa [hvisit] at hquiet
  | case3 graph frame rest next frames events hvisit final ih =>
    have hquiet := d.quiet_visit graph frame
    rw [hvisit] at hquiet
    exact hquiet.append ih

/-- A discovery reports its failure at last, and no other error. -/
theorem discover_failsLast (d : Discovery) (exports : List Export) :
    (d.discover exports).FailsLast := by
  have henter : ∀ graph entry, (d.enter graph entry).FailsLast := by
    intro graph entry
    have hentered : (Traced.report (.entered entry.offset entry.key)).FailsLast :=
      Traced.failsLast_report (by simp [Event.severity])
    exact hentered.bind fun _ => Traced.failsLast_reportFailure (d.quiet_run _ _)
  have hall : ∀ graph, (d.enterAll graph exports).FailsLast := by
    induction exports with
    | nil => exact Traced.failsLast_pure
    | cons entry rest ih => exact fun graph => (henter graph entry).bind ih
  refine (hall .empty).bind fun graph => ?_
  have hdiscovered : (Traced.report (.discovered graph.size)).FailsLast :=
    Traced.failsLast_report (by simp [Event.severity])
  exact hdiscovered.bind fun _ => Traced.failsLast_pure graph

theorem told_of_gainTarget (h : inferred.Told offset reported) {gained : Inferred}
    (hgain : (gainTarget offset target inferred).outcome = .ok gained) :
    gained.Told offset (reported ++ (gainTarget offset target inferred).events) := by
  cases h with
  | nothing | call =>
    cases hgain
    have hperm : [target].Perm (OffsetSet.singleton target).toList := .refl _
    exact .targets hperm
  | @targets targets first others hperm =>
    rw [gainTarget] at hgain ⊢
    split at hgain
    · next hmem =>
      cases hgain
      rw [if_pos hmem]
      exact (List.append_nil _).symm ▸ .targets hperm
    · next hmem =>
      cases hgain
      rw [if_neg hmem]
      have hgained : (first :: (others ++ [target])).Perm (targets.insert target).toList :=
        ((List.perm_append_singleton target (first :: others)).trans (hperm.cons target)).trans
          (OffsetSet.perm_insert hmem)
      have htold : Inferred.Told offset _ _ := .targets hgained
      rw [List.map_append] at htold
      exact htold

theorem told_of_resolveTarget (h : node.inferred.Told node.offset reported)
    (hinferred : (d.resolveTarget graph node).outcome = .ok inferred) :
    inferred.Told node.offset (reported ++ (d.resolveTarget graph node).events) := by
  rw [resolveTarget] at hinferred ⊢
  split at hinferred
  · next htransfers =>
    obtain ⟨target, htarget, hgain⟩ := Traced.outcome_bind_eq_ok.1 hinferred
    rw [if_pos htransfers, Traced.bind_of_ok _ htarget]
    exact told_of_gainTarget h hgain
  · next htransfers =>
    cases hinferred
    rw [if_neg htransfers]
    exact (List.append_nil _).symm ▸ h

theorem Followed.events_eq (h : d.Followed graph node known call e) :
    (d.follow graph node).events = (d.resolveCall? graph node).events ++
      (d.resolveTarget (graph.insert (node.consuming known.inputs call))
        (node.consuming known.inputs call)).events := by
  refine (Traced.events_bind_of_ok _ h.resolved).trans (congrArg _ ?_)
  refine (Traced.events_bind_of_ok (x := .ofExcept _) _ h.effect).trans ?_
  refine (Traced.events_bind_of_ok (x := .ofExcept _) _ h.inputs).trans ?_
  exact (Traced.events_bind_of_ok _ h.inferred).trans (List.append_nil _)

def arrival (graph : Graph) (frame : Frame) (node : Node) : Event :=
  if graph.contains frame.ip then .frameChanged frame.ip else .decoded node.toInstruction

/-- A visit drops the frame without a report, or reports what it finds and follows it. -/
theorem visit_reports (h : (d.visit graph frame).outcome = .ok (next, frames)) :
    (next = graph ∧ (d.visit graph frame).events = []) ∨ ∃ node, d.Arrives graph frame node ∧
      (d.follow (graph.insert node) node).outcome = .ok (next, frames) ∧
      (d.visit graph frame).events =
        arrival graph frame node :: (d.follow (graph.insert node) node).events := by
  rw [visit] at h ⊢
  split at h
  · next old hget =>
    obtain ⟨⟨merged, grew⟩, hmerge, h⟩ := Traced.outcome_bind_eq_ok.1 h
    have hcontains : graph.contains frame.ip = true := by
      simp [Graph.contains, hget]
    rw [Traced.events_bind_of_ok _ hmerge]
    cases grew with
    | false =>
      cases h
      exact .inl ⟨rfl, rfl⟩
    | true =>
      obtain ⟨_, _, h⟩ := Traced.outcome_bind_eq_ok.1 h
      refine .inr ⟨_, .grown hget hmerge, h, ?_⟩
      rw [arrival, if_pos hcontains]
      rfl
  · next hget =>
    obtain ⟨node, hdecode, h⟩ := Traced.outcome_bind_eq_ok.1 h
    rw [Traced.events_bind_of_ok _ hdecode]
    obtain ⟨_, _, h⟩ := Traced.outcome_bind_eq_ok.1 h
    refine .inr ⟨node, .found hget hdecode, h, ?_⟩
    rw [arrival, if_neg (by simp [Graph.contains, hget])]
    rfl

theorem filter_decodes_follow (graph : Graph) (node : Node) (offset : UInt32) :
    (d.follow graph node).events.filter (Event.decodes offset) = [] := by
  rw [List.filter_eq_nil_iff]
  intro event hevent
  rcases mem_events_follow hevent with ⟨_, rfl⟩ | ⟨_, rfl | rfl⟩ <;> simp [Event.decodes]

theorem filter_aims_resolveTarget (graph : Graph) (node : Node) (offset : UInt32) :
    (d.resolveTarget graph node).events.filter (Event.aims offset) =
      if node.offset = offset then (d.resolveTarget graph node).events else [] := by
  split
  · next heq =>
    rw [List.filter_eq_self]
    intro event hevent
    obtain ⟨_, rfl | rfl⟩ := mem_events_resolveTarget hevent <;> simp [Event.aims, heq]
  · next hne =>
    rw [List.filter_eq_nil_iff]
    intro event hevent
    obtain ⟨_, rfl | rfl⟩ := mem_events_resolveTarget hevent <;> simp [Event.aims, hne]

theorem Followed.filter_aims (h : d.Followed graph node known call e) (offset : UInt32) :
    (d.follow graph node).events.filter (Event.aims offset) =
      if node.offset = offset then
        (d.resolveTarget (graph.insert (node.consuming known.inputs call))
          (node.consuming known.inputs call)).events
      else [] := by
  have hcall : (d.resolveCall? graph node).events.filter (Event.aims offset) = [] := by
    rw [List.filter_eq_nil_iff]
    intro event hevent
    obtain ⟨_, rfl⟩ := mem_events_resolveCall? hevent
    simp [Event.aims]
  rw [h.events_eq, List.filter_append, hcall, filter_aims_resolveTarget]
  rfl

theorem Followed.told (h : d.Followed graph node known call e)
    (hcalls : node.opcode.variableArity = true → ∀ targets, node.inferred ≠ .targets targets)
    (htold : node.inferred.Told node.offset reported) :
    known.inferred.Told node.offset (reported ++
      (d.resolveTarget (graph.insert (node.consuming known.inputs call))
        (node.consuming known.inputs call)).events) := by
  have hconsuming : (node.consuming known.inputs call).inferred.Told
      (node.consuming known.inputs call).offset reported := by
    cases call with
    | none => exact htold
    | some service =>
      rcases resolveCall?_cases h.resolved with ⟨_, hnone⟩ | ⟨harity, _⟩
      · cases hnone
      · generalize hinferred : node.inferred = inferred at htold
        cases htold with
        | nothing | call => exact .call
        | targets => exact absurd hinferred (hcalls harity _)
  have hresolved := told_of_resolveTarget hconsuming h.inferred
  exact hresolved

theorem Arrives.inferred_ne_targets (h : d.Arrives graph frame node)
    (hcalls : ∀ offset node, graph.get? offset = some node → node.Calls)
    (harity : node.opcode.variableArity = true) (targets : OffsetSet) :
    node.inferred ≠ .targets targets := by
  intro heq
  cases h with
  | found _ hdecode =>
    rw [inferred_of_decode hdecode] at heq
    cases heq
  | @grown old _ hget _ =>
    obtain ⟨service, hservice, _⟩ := (hcalls _ old hget).varying harity
    rw [Node.call?, show old.inferred = .targets targets from heq] at hservice
    cases hservice

section

variable {log : List Event} (hcalls : ∀ offset node, graph.get? offset = some node → node.Calls)
  (hlog : ∀ offset, Accounts log offset (graph.get? offset))
include hcalls hlog

/-- What is reported when an arriving frame is taken in accounts for what is made of the instruction
there. -/
theorem Arrives.accounts (h : d.Arrives graph frame node)
    (hknown : d.Followed (graph.insert node) node known call e) :
    Accounts (log ++ arrival graph frame node :: (d.follow (graph.insert node) node).events)
      node.offset (some known) := by
  have htold {reported : List Event} (hreported : node.inferred.Told node.offset reported) :=
    hknown.told (h.inferred_ne_targets hcalls) hreported
  have haims := hknown.filter_aims node.offset
  rw [if_pos rfl] at haims
  have hbefore := hlog node.offset
  have hoffset := h.offset_eq
  cases h with
  | found hget hdecode =>
    rw [hoffset, hget, ← hoffset] at hbefore
    cases hbefore with | missing hnone hnowhere => ?_
    have harrival : arrival graph frame node = .decoded node.toInstruction := by
      simp [arrival, Graph.contains, hget]
    rw [inferred_of_decode hdecode] at htold
    constructor
    · rw [List.filter_append, hnone, harrival, hknown.toInstruction_eq]
      simp [Event.decodes, filter_decodes_follow]
    · rw [List.filter_append, hnowhere, harrival, List.filter_cons_of_neg (by simp [Event.aims]),
        haims]
      exact htold .nothing
  | @grown old merged hget hmerge =>
    rw [hoffset, hget, ← hoffset] at hbefore
    cases hbefore with | found hone htargets => ?_
    have harrival : arrival graph frame { old with frame := merged } = .frameChanged frame.ip := by
      simp [arrival, Graph.contains, hget]
    constructor
    · rw [List.filter_append, hone, harrival, hknown.toInstruction_eq]
      simp [Event.decodes, filter_decodes_follow]
    · rw [List.filter_append, harrival, List.filter_cons_of_neg (by simp [Event.aims]), haims]
      exact htold htargets

theorem visit_accounts (h : (d.visit graph frame).outcome = .ok (next, frames)) (offset : UInt32) :
    Accounts (log ++ (d.visit graph frame).events) offset (next.get? offset) := by
  rcases visit_reports h with ⟨rfl, hnothing⟩ | ⟨node, harrives, hfollow, hevents⟩
  · rw [hnothing, List.append_nil]
    exact hlog offset
  · obtain ⟨known, call, e, hknown, rfl, _⟩ := followed_of_follow hfollow
    rw [harrives.get?_insert hknown.toInstruction_eq, hevents]
    split
    · next heq =>
      rw [heq, ← harrives.offset_eq]
      exact harrives.accounts hcalls hlog hknown
    · next hne =>
      rw [← harrives.offset_eq] at hne
      apply (hlog offset).congr
      · have harrival : (arrival graph frame node).decodes offset = false := by
          rw [arrival]
          split
          · rfl
          · simpa [Event.decodes] using Ne.symm hne
        rw [List.filter_append, List.filter_cons_of_neg (by simp [harrival]),
          filter_decodes_follow, List.append_nil]
      · have harrival : (arrival graph frame node).aims offset = false := by
          rw [arrival]
          split <;> rfl
        rw [List.filter_append, List.filter_cons_of_neg (by simp [harrival]),
          hknown.filter_aims offset, if_neg (Ne.symm hne), List.append_nil]

end

/-- The states that a discovery passes through, with what is reported until then. -/
inductive Reports (d : Discovery) (exports : List Export) : Search → List Event → Prop
  | start : Reports d exports ⟨.empty, []⟩ []
  | enter {graph entry log} : Reports d exports ⟨graph, []⟩ log → entry ∈ exports →
      Reports d exports ⟨graph, [.start entry.offset entry.key]⟩
        (log ++ [.entered entry.offset entry.key])
  | visit {graph next frame frames rest log} : Reports d exports ⟨graph, frame :: rest⟩ log →
      (d.visit graph frame).outcome = .ok (next, frames) →
      Reports d exports ⟨next, frames ++ rest⟩ (log ++ (d.visit graph frame).events)

theorem Reports.passes {s : Search} {log : List Event} (h : d.Reports exports s log) :
    d.Passes exports s := by
  induction h with
  | start => exact .start
  | enter _ hentry ih => exact ih.enter hentry
  | visit _ hvisit ih => exact ih.visit hvisit

theorem Reports.accounts (hisa : d.isa.CallsReturn) {s : Search} {log : List Event}
    (h : d.Reports exports s log) : ∀ offset, Accounts log offset (s.graph.get? offset) := by
  induction h with
  | start => exact fun _ => .missing rfl rfl
  | enter _ _ ih =>
    intro offset
    apply (ih offset).congr <;> simp [Event.decodes, Event.aims]
  | visit hstate hvisit ih => exact visit_accounts (hstate.passes.calls hisa) ih hvisit

theorem events_run_visit {rest : List Frame}
    (h : (d.visit graph frame).outcome = .ok (next, frames)) :
    (d.run graph (frame :: rest)).events =
      (d.visit graph frame).events ++ (d.run next (frames ++ rest)).events := by
  rw [run_cons]
  exact Traced.events_bind_of_ok _ h

theorem Reports.run {agenda : List Frame} {log : List Event} {final : Graph}
    (h : d.Reports exports ⟨graph, agenda⟩ log) (hrun : (d.run graph agenda).outcome = .ok final) :
    d.Reports exports ⟨final, []⟩ (log ++ (d.run graph agenda).events) := by
  -- What is reported until a state and what is still reported from there stay the same together.
  obtain ⟨whole, hwhole, heq⟩ := run_preserves
    (P := fun middle waiting => ∃ log', d.Reports exports ⟨middle, waiting⟩ log' ∧
      log ++ (d.run graph agenda).events = log' ++ (d.run middle waiting).events)
    (fun ⟨log', hlog', heq⟩ hvisit =>
      ⟨_, hlog'.visit hvisit, by rw [heq, events_run_visit hvisit, List.append_assoc]⟩)
    ⟨log, h, rfl⟩ hrun
  rw [run_nil, Traced.events_pure, List.append_nil] at heq
  exact heq ▸ hwhole

theorem Reports.enterAll {entries : List Export} (hentries : entries ⊆ exports)
    {log : List Event} {final : Graph} (h : d.Reports exports ⟨graph, []⟩ log)
    (hall : (d.enterAll graph entries).outcome = .ok final) :
    d.Reports exports ⟨final, []⟩ (log ++ (d.enterAll graph entries).events) := by
  induction entries generalizing graph log with
  | nil =>
    cases hall
    rw [Discovery.enterAll, Traced.events_pure, List.append_nil]
    exact h
  | cons entry rest ih =>
    rw [Discovery.enterAll] at hall ⊢
    obtain ⟨middle, hentry, hrest⟩ := Traced.outcome_bind_eq_ok.1 hall
    have hreports : d.Reports exports ⟨middle, []⟩ (log ++ (d.enter graph entry).events) := by
      obtain ⟨_, _, hrun⟩ := Traced.outcome_bind_eq_ok.1 hentry
      rw [Traced.outcome_reportFailure] at hrun
      have hmiddle := (h.enter (hentries List.mem_cons_self)).run hrun
      rwa [List.append_assoc, ← Traced.reportFailure_of_ok hrun] at hmiddle
    rw [Traced.events_bind_of_ok _ hentry, ← List.append_assoc]
    exact ih (List.subset_of_cons_subset hentries) hreports hrest

/-- Before the size of the graph a discovery reports what accounts for the graph. -/
theorem reports_of_discover (h : (d.discover exports).outcome = .ok graph) :
    ∃ log, d.Reports exports ⟨graph, []⟩ log ∧
      (d.discover exports).events = log ++ [.discovered graph.size] := by
  obtain ⟨final, hall, h⟩ := Traced.outcome_bind_eq_ok.1 h
  cases h
  exact ⟨_, Reports.start.enterAll (List.Subset.refl _) hall, Traced.events_bind_of_ok _ hall⟩

end Discovery

end StackLift
