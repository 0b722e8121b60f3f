import StackLift.Discovery.Visit

/-!
Discovery of the instructions that exports reach. Targets and selectors are computed on the stack,
so code is followed with symbolic frames, which wait on an agenda and are visited one by one. The
search ends because every visit makes progress, and what every visit keeps holds of the result
(`Discovery.run_preserves`).
-/

namespace StackLift

structure Export where
  offset : UInt32
  key : UInt32
deriving DecidableEq

namespace Discovery

/-- Visits frames, the first of the agenda first, until none is left. -/
def run (d : Discovery) (graph : Graph) (agenda : List Frame) (overflow : Overflow := .panics) :
    Traced Graph :=
  match agenda with
  | [] => pure graph
  | frame :: rest =>
    match _visited : d.visit graph frame overflow with
    | ⟨.error fault, events⟩ => ⟨.error fault, events⟩
    | ⟨.ok (next, frames), events⟩ =>
      let final := d.run next (frames ++ rest) overflow
      ⟨final.outcome, events ++ final.events⟩
termination_by (UInt32.size - graph.size, graph.room, agenda.length)
decreasing_by
  have hle := next.size_le
  rcases visit_progress (congrArg Traced.outcome _visited) with ⟨rfl, rfl⟩ | ⟨hsize, hroom⟩ | hsize
  · exact .right _ (.right _ (by simp))
  · rw [hsize]
    exact .right _ (.left _ _ hroom)
  · exact .left _ _ (by omega)

@[simp] theorem run_nil (d : Discovery) (graph : Graph) {overflow : Overflow} :
    d.run graph [] overflow = pure graph := by
  rw [run]

theorem run_cons (d : Discovery) (graph : Graph) (frame : Frame) (rest : List Frame)
    {overflow : Overflow} :
    d.run graph (frame :: rest) overflow =
      d.visit graph frame overflow >>= fun visited =>
        d.run visited.1 (visited.2 ++ rest) overflow := by
  rw [run]
  split
  · next h => rw [h, Traced.bind_of_error _ rfl]
  · next h => rw [h, Traced.bind_of_ok _ rfl]

/-- What every visit keeps holds of the graph in the end, when the agenda is empty. -/
theorem run_preserves {d : Discovery} {P : Graph → List Frame → Prop}
    (hvisit : ∀ {graph next frame frames rest}, P graph (frame :: rest) →
      (d.visit graph frame).outcome = .ok (next, frames) → P next (frames ++ rest))
    {graph final : Graph} {agenda : List Frame} (h : P graph agenda)
    (hrun : (d.run graph agenda).outcome = .ok final) : P final [] := by
  fun_induction d.run graph agenda with
  | case1 graph =>
    cases hrun
    exact h
  | case2 => cases hrun
  | case3 graph frame rest next frames events hv run ih =>
    exact ih (hvisit h (congrArg Traced.outcome hv)) hrun

def enter (d : Discovery) (graph : Graph) (entry : Export) (overflow : Overflow := .panics) :
    Traced Graph := do
  Traced.report (.entered entry.offset entry.key)
  (d.run graph [.start entry.offset entry.key] overflow).reportFailure

/-- Discovers what the exports reach, one after the other. -/
def enterAll (d : Discovery) (graph : Graph) (exports : List Export)
    (overflow : Overflow := .panics) : Traced Graph :=
  match exports with
  | [] => return graph
  | entry :: rest => do
    let graph ← d.enter graph entry overflow
    d.enterAll graph rest overflow

/-- The graph of everything that the exports reach. -/
def discover (d : Discovery) (exports : List Export) (overflow : Overflow := .panics) :
    Traced Graph := do
  let graph ← d.enterAll .empty exports overflow
  Traced.report (.discovered graph.size)
  return graph

end Discovery

end StackLift
