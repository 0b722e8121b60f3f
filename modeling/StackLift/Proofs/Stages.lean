import StackLift.Proofs.Growth

namespace StackLift.Discovery

variable {d : Discovery} {exports rest : List Export} {graph final : Graph} {s : Search}

/-- A stage, with the exports that remain. The next export is entered when no frame waits, otherwise
the first frame is visited. -/
inductive Stage (d : Discovery) (exports : List Export) : List Export → Search → Prop
  | start : Stage d exports exports ⟨.empty, []⟩
  | enter {entry rest graph} : Stage d exports (entry :: rest) ⟨graph, []⟩ →
      Stage d exports rest (.enter graph entry)
  | visit {rest graph next frame frames waiting} :
      Stage d exports rest ⟨graph, frame :: waiting⟩ →
      (d.visit graph frame).outcome = .ok (next, frames) →
      Stage d exports rest ⟨next, frames ++ waiting⟩

theorem Stage.subset (h : d.Stage exports rest s) : rest ⊆ exports := by
  induction h with
  | start => exact List.Subset.refl _
  | enter _ ih => exact List.subset_of_cons_subset ih
  | visit _ _ ih => exact ih

theorem Stage.passes (h : d.Stage exports rest s) : d.Passes exports s := by
  induction h with
  | start => exact .start
  | enter hstage ih => exact ih.enter (hstage.subset List.mem_cons_self)
  | visit _ hvisit ih => exact ih.visit hvisit

theorem Stage.outcome_eq (h : d.Stage exports rest s) :
    ((d.run s.graph s.agenda).outcome >>= fun next => (d.enterAll next rest).outcome) =
      (d.discover exports).outcome := by
  induction h with
  | start =>
    rw [outcome_discover, run_nil]
    rfl
  | @enter entry rest graph _ ih =>
    rw [← ih, run_nil]
    exact (outcome_enterAll_cons graph entry rest).symm
  | @visit _ graph next frame frames waiting _ hvisit ih =>
    have hadvances : d.Advances ⟨graph, frame :: waiting⟩ ⟨next, frames ++ waiting⟩ :=
      .visit hvisit
    rw [← ih, outcome_run_visit hadvances]

theorem Stage.extends (h : d.Stage exports rest s)
    (hfinal : (d.discover exports).outcome = .ok final) : final.Extends s.graph := by
  rw [← h.outcome_eq] at hfinal
  obtain ⟨next, hrun, hrest⟩ := bind_eq_ok.1 hfinal
  have hkeeps : ∀ {graph next frame frames}, graph.Recorded ∧ graph.Extends s.graph →
      (d.visit graph frame).outcome = .ok (next, frames) →
      next.Recorded ∧ next.Extends s.graph :=
    fun hp hvisit => ⟨visit_recorded hvisit hp.1, (visit_extends hvisit hp.1).trans hp.2⟩
  have hnext : next.Recorded ∧ next.Extends s.graph :=
    run_preserves (P := fun graph _ => graph.Recorded ∧ graph.Extends s.graph)
      (fun hp hvisit => hkeeps hp hvisit) ⟨h.passes.recorded, .refl _⟩ hrun
  exact (enterAll_preserves (P := fun graph _ => graph.Recorded ∧ graph.Extends s.graph)
    (fun _ hp => hp) (fun hp hvisit => hkeeps hp hvisit) hnext hrest).2

/-- The frames that wait at a stage are covered in the end. -/
theorem Stage.covers (hisa : d.isa.CallsReturn) (h : d.Stage exports rest s)
    (hfinal : (d.discover exports).outcome = .ok final) : ∀ f ∈ s.agenda, final.Covers f := by
  rw [← h.outcome_eq] at hfinal
  obtain ⟨next, hrun, hrest⟩ := bind_eq_ok.1 hfinal
  intro f hf
  obtain ⟨hnext, hcovers⟩ := run_covers hisa (h.passes.drawnFrom hisa) (.inl hf) hrun
  exact enterAll_keeps_covers hisa hnext hcovers hrest

theorem Stage.of_enterAll (h : d.Stage exports rest ⟨graph, []⟩)
    (hfinal : (d.enterAll graph rest).outcome = .ok final) : d.Stage exports [] ⟨final, []⟩ := by
  induction rest generalizing graph with
  | nil =>
    cases hfinal
    exact h
  | cons entry rest ih =>
    rw [outcome_enterAll_cons] at hfinal
    obtain ⟨next, hrun, hrest⟩ := bind_eq_ok.1 hfinal
    have hnext := run_preserves (P := fun graph agenda => d.Stage exports rest ⟨graph, agenda⟩)
      (fun hstage hvisit => hstage.visit hvisit) h.enter hrun
    exact ih hnext hrest

theorem stage_of_discover (h : (d.discover exports).outcome = .ok final) :
    d.Stage exports [] ⟨final, []⟩ := by
  rw [outcome_discover] at h
  exact Stage.start.of_enterAll h

end StackLift.Discovery
