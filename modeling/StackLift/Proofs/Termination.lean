import Mathlib
import StackLift.Image.Assembler
import StackLift.InstructionSet.Reference
import StackLift.Proofs.Overflow

namespace StackLift

structure Search where
  graph : Graph
  agenda : List Frame

namespace Search

def enter (graph : Graph) (entry : Export) : Search :=
  ⟨graph, [.start entry.offset entry.key]⟩

/-- Offsets not yet discovered, then room of the recorded frames, then frames that wait. -/
def remaining (s : Search) : Nat × Nat × Nat :=
  (UInt32.size - s.graph.size, s.graph.room, s.agenda.length)

end Search

namespace Discovery

variable {d : Discovery} {overflow : Overflow}

/-- The first frame of the agenda is visited, and what it leads to is put in its place. -/
inductive Advances (d : Discovery) : Search → Search → (overflow : Overflow := .panics) → Prop
  | visit {graph next frame frames rest overflow} :
      (d.visit graph frame overflow).outcome = .ok (next, frames) →
      Advances d ⟨graph, frame :: rest⟩ ⟨next, frames ++ rest⟩ overflow

theorem Advances.remaining_lt {s t : Search} (h : d.Advances s t overflow) :
    WellFoundedRelation.rel t.remaining s.remaining := by
  cases h with
  | @visit graph next frame frames rest _ hvisit =>
    have hle := next.size_le
    rcases visit_progress hvisit with ⟨rfl, rfl⟩ | ⟨hsize, hroom⟩ | hsize
    · exact .right _ (.right _ (Nat.lt_succ_self _))
    · simp only [Search.remaining, hsize]
      exact .right _ (.left _ _ hroom)
    · apply Prod.Lex.left
      change UInt32.size - next.size < UInt32.size - graph.size
      omega

theorem wellFounded_advances (d : Discovery) (overflow : Overflow) :
    WellFounded fun t s => d.Advances s t overflow := by
  apply Subrelation.wf (fun h => Advances.remaining_lt h)
  exact (InvImage.wf Search.remaining WellFoundedRelation.wf :)

/-- The outcome of a search that is granted a number of visits, if they suffice. -/
def runWithin (d : Discovery) (visits : Nat) (s : Search) (overflow : Overflow := .panics) :
    Option (Except Fault Graph) :=
  match visits, s with
  | _, ⟨graph, []⟩ => some (.ok graph)
  | 0, ⟨_, _ :: _⟩ => none
  | visits + 1, ⟨graph, frame :: rest⟩ =>
    match (d.visit graph frame overflow).outcome with
    | .error fault => some (.error fault)
    | .ok (next, frames) => d.runWithin visits ⟨next, frames ++ rest⟩ overflow

def enterWithin (d : Discovery) (visits : Nat) (graph : Graph) (exports : List Export)
    (overflow : Overflow := .panics) : Option (Except Fault Graph) :=
  match exports with
  | [] => some (.ok graph)
  | entry :: rest =>
    match d.runWithin visits (.enter graph entry) overflow with
    | none => none
    | some (.error fault) => some (.error fault)
    | some (.ok next) => d.enterWithin visits next rest overflow

theorem runWithin_visit {s t : Search} (h : d.Advances s t overflow) (visits : Nat) :
    d.runWithin (visits + 1) s overflow = d.runWithin visits t overflow := by
  cases h with
  | visit hvisit => simp only [runWithin, hvisit]

theorem outcome_run_visit {s t : Search} (h : d.Advances s t overflow) :
    (d.run s.graph s.agenda overflow).outcome = (d.run t.graph t.agenda overflow).outcome := by
  cases h with
  | visit hvisit =>
    rw [run_cons, Traced.outcome_bind, hvisit]
    rfl

theorem runWithin_mono {s : Search} {outcome : Except Fault Graph} {visits more : Nat}
    (h : d.runWithin visits s overflow = some outcome) (hle : visits ≤ more) :
    d.runWithin more s overflow = some outcome := by
  induction more generalizing s visits with
  | zero =>
    cases Nat.le_zero.1 hle
    exact h
  | succ more ih =>
    obtain ⟨graph, agenda⟩ := s
    cases agenda with
    | nil =>
      cases visits <;> exact h
    | cons frame rest =>
      cases visits with
      | zero => cases h
      | succ visits =>
        rw [runWithin] at h ⊢
        split at h
        · exact h
        · exact ih h (Nat.le_of_succ_le_succ hle)

theorem outcome_run_of_runWithin {s : Search} {outcome : Except Fault Graph} {visits : Nat}
    (h : d.runWithin visits s overflow = some outcome) :
    (d.run s.graph s.agenda overflow).outcome = outcome := by
  induction visits generalizing s with
  | zero =>
    obtain ⟨graph, agenda⟩ := s
    cases agenda with
    | nil =>
      cases h
      rw [run_nil]
      rfl
    | cons frame rest => cases h
  | succ visits ih =>
    obtain ⟨graph, agenda⟩ := s
    cases agenda with
    | nil =>
      cases h
      rw [run_nil]
      rfl
    | cons frame rest =>
      cases hvisit : (d.visit graph frame overflow).outcome with
      | error fault =>
        simp only [runWithin, hvisit] at h
        cases h
        rw [run_cons, Traced.outcome_bind, hvisit]
        rfl
      | ok visited =>
        have hadvances :
            d.Advances ⟨graph, frame :: rest⟩ ⟨visited.1, visited.2 ++ rest⟩ overflow :=
          .visit hvisit
        rw [runWithin_visit hadvances] at h
        rw [outcome_run_visit hadvances]
        exact ih h

theorem exists_runWithin (d : Discovery) (s : Search) (overflow : Overflow) :
    ∃ visits, d.runWithin visits s overflow = some (d.run s.graph s.agenda overflow).outcome := by
  induction s using (wellFounded_advances d overflow).induction with
  | _ s ih =>
    obtain ⟨graph, agenda⟩ := s
    cases agenda with
    | nil => exact ⟨0, by rw [run_nil]; rfl⟩
    | cons frame rest =>
      cases hvisit : (d.visit graph frame overflow).outcome with
      | error fault =>
        refine ⟨1, ?_⟩
        rw [run_cons, Traced.outcome_bind, hvisit]
        simp only [runWithin, hvisit]
        rfl
      | ok visited =>
        have hadvances :
            d.Advances ⟨graph, frame :: rest⟩ ⟨visited.1, visited.2 ++ rest⟩ overflow :=
          .visit hvisit
        obtain ⟨visits, h⟩ := ih _ hadvances
        exact ⟨visits + 1, by rw [runWithin_visit hadvances, h, outcome_run_visit hadvances]⟩

theorem outcome_enterAll_cons (graph : Graph) (entry : Export) (rest : List Export) :
    (d.enterAll graph (entry :: rest) overflow).outcome =
      (d.run graph [.start entry.offset entry.key] overflow).outcome >>= fun next =>
        (d.enterAll next rest overflow).outcome := by
  rw [enterAll, Traced.outcome_bind, enter, Traced.outcome_bind, Traced.outcome_reportFailure]
  rfl

theorem enterWithin_mono {graph : Graph} {exports : List Export} {outcome : Except Fault Graph}
    {visits more : Nat} (h : d.enterWithin visits graph exports overflow = some outcome)
    (hle : visits ≤ more) : d.enterWithin more graph exports overflow = some outcome := by
  induction exports generalizing graph with
  | nil => exact h
  | cons entry rest ih =>
    rw [enterWithin] at h ⊢
    cases hrun : d.runWithin visits (.enter graph entry) overflow with
    | none =>
      rw [hrun] at h
      cases h
    | some result =>
      rw [hrun] at h
      rw [runWithin_mono hrun hle]
      cases result with
      | error fault => exact h
      | ok next => exact ih h

theorem outcome_enterAll_of_enterWithin {graph : Graph} {exports : List Export}
    {outcome : Except Fault Graph} {visits : Nat}
    (h : d.enterWithin visits graph exports overflow = some outcome) :
    (d.enterAll graph exports overflow).outcome = outcome := by
  induction exports generalizing graph with
  | nil =>
    cases h
    rfl
  | cons entry rest ih =>
    rw [enterWithin] at h
    rw [outcome_enterAll_cons]
    cases hrun : d.runWithin visits (.enter graph entry) overflow with
    | none =>
      rw [hrun] at h
      cases h
    | some result =>
      rw [hrun] at h
      have houtcome : (d.run graph [.start entry.offset entry.key] overflow).outcome = result :=
        outcome_run_of_runWithin hrun
      rw [houtcome]
      cases result with
      | error fault =>
        cases h
        rfl
      | ok next => exact ih h

theorem exists_enterWithin (d : Discovery) (graph : Graph) (exports : List Export)
    (overflow : Overflow) : ∃ visits,
      d.enterWithin visits graph exports overflow =
        some (d.enterAll graph exports overflow).outcome := by
  induction exports generalizing graph with
  | nil => exact ⟨0, rfl⟩
  | cons entry rest ih =>
    obtain ⟨first, hfirst⟩ := d.exists_runWithin (.enter graph entry) overflow
    rw [outcome_enterAll_cons]
    cases houtcome : (d.run graph [.start entry.offset entry.key] overflow).outcome with
    | error fault =>
      refine ⟨first, ?_⟩
      rw [enterWithin, hfirst]
      simp only [Search.enter, houtcome]
      rfl
    | ok next =>
      obtain ⟨others, hothers⟩ := ih next
      refine ⟨max first others, ?_⟩
      rw [enterWithin, runWithin_mono hfirst (Nat.le_max_left _ _)]
      simp only [Search.enter, houtcome]
      exact enterWithin_mono hothers (Nat.le_max_right _ _)

def discoverWithin (d : Discovery) (visits : Nat) (exports : List Export)
    (overflow : Overflow := .panics) : Option (Except Fault Graph) :=
  d.enterWithin visits .empty exports overflow

theorem outcome_discover (d : Discovery) (exports : List Export) {overflow : Overflow} :
    (d.discover exports overflow).outcome = (d.enterAll .empty exports overflow).outcome := by
  rw [discover, Traced.outcome_bind]
  cases (d.enterAll .empty exports overflow).outcome <;> rfl

theorem outcome_discover_of_discoverWithin {exports : List Export} {outcome : Except Fault Graph}
    {visits : Nat} (h : d.discoverWithin visits exports overflow = some outcome) :
    (d.discover exports overflow).outcome = outcome :=
  (d.outcome_discover exports).trans (outcome_enterAll_of_enterWithin h)

/-- A discovery is known by whatever a number of visits that suffice tells about its graph. -/
theorem exists_discovered {α : Type} {exports : List Export} {visits : Nat} (f : Graph → α) {a : α}
    (h : (d.discoverWithin visits exports overflow).map (fun outcome => outcome.map f) =
      some (.ok a)) :
    ∃ graph, (d.discover exports overflow).outcome = .ok graph ∧ f graph = a := by
  obtain ⟨outcome, houtcome, hmap⟩ := Option.map_eq_some_iff.1 h
  cases outcome with
  | error fault => cases hmap
  | ok graph =>
    cases hmap
    exact ⟨graph, outcome_discover_of_discoverWithin houtcome, rfl⟩

/-- No search goes on for ever, and granted enough visits every discovery comes to its outcome: a
graph, a failure, or a panic if some service consumes more than a list can hold. -/
theorem search_ends (d : Discovery) (overflow : Overflow) :
    (¬∃ search : Nat → Search, ∀ n, d.Advances (search n) (search (n + 1)) overflow) ∧
      ∀ exports,
        (∃ visits, d.discoverWithin visits exports overflow =
          some (d.discover exports overflow).outcome) ∧
        ((d.discover exports overflow).outcome = .error .capacityOverflow →
          ∃ call ∈ d.isa.calls, ¬call.signature.HasRoom overflow) := by
  constructor
  · rintro ⟨search, hsearch⟩
    have hdescending := wellFounded_iff_isEmpty_descending_chain.1 (d.wellFounded_advances overflow)
    exact hdescending.elim ⟨search, hsearch⟩
  · intro exports
    refine ⟨?_, exists_call_of_discover⟩
    rw [outcome_discover]
    exact d.exists_enterWithin .empty exports overflow

/-- `PUSHI_DWORD 9; VCALL; RET`, where the service that 9 picks takes so many arguments. -/
def demanding (arguments : UInt64) : Discovery :=
  ⟨(maskBytes 0 0 [0x04, 9, 0, 0, 0, 0x40, 0x34]).toArray,
    InstructionSet.reference.insertCall ⟨9, ⟨"huge", arguments, none⟩⟩, .ofPresets []⟩

/-- Room for so many arguments cannot be made, however sums overflow. -/
theorem demanding_panics :
    ((demanding 0x4000000000000000).discover [⟨0, 0⟩]).outcome = .error .capacityOverflow ∧
      ((demanding 0x4000000000000000).discover [⟨0, 0⟩] .wraps).outcome =
        .error .capacityOverflow := by
  have hrun : ∀ overflow, (demanding 0x4000000000000000).discoverWithin 10 [⟨0, 0⟩] overflow =
      some (.error .capacityOverflow) := by
    rintro (_ | _) <;> cbv
  exact ⟨outcome_discover_of_discoverWithin (hrun .panics),
    outcome_discover_of_discoverWithin (hrun .wraps)⟩

end Discovery

end StackLift
