import StackLift.Log

/-!
Computations that may fail and report events on the way. What was reported before a failure is
kept. The outcome does not depend on the events: taking it commutes with sequencing
(`Traced.outcome_bind`).
-/

namespace StackLift

structure Traced (α : Type) where
  outcome : Except Fault α
  events : List Event

namespace Traced

variable {α β γ : Type}

def andThen (x : Traced α) (f : α → Traced β) : Traced β :=
  match x.outcome with
  | .ok a => ⟨(f a).outcome, x.events ++ (f a).events⟩
  | .error fault => ⟨.error fault, x.events⟩

instance : Monad Traced where
  pure a := ⟨.ok a, []⟩
  bind := andThen

/-- Reports events. -/
def reportAll (events : List Event) : Traced Unit :=
  ⟨.ok (), events⟩

/-- Reports an event. -/
def report (event : Event) : Traced Unit :=
  reportAll [event]

/-- An outcome without events. -/
def ofExcept (outcome : Except Fault α) : Traced α :=
  ⟨outcome, []⟩

/-- Reports a failure, if there is one, after everything else. A panic is not reported. -/
def reportFailure (x : Traced α) : Traced α :=
  match x.outcome with
  | .ok _ | .error .capacityOverflow => x
  | .error fault => { x with events := x.events ++ [.failed fault] }

@[simp] theorem outcome_pure (a : α) : (pure a : Traced α).outcome = .ok a :=
  rfl

@[simp] theorem events_pure (a : α) : (pure a : Traced α).events = [] :=
  rfl

@[simp] theorem outcome_bind (x : Traced α) (f : α → Traced β) :
    (x >>= f).outcome = x.outcome >>= fun a => (f a).outcome := by
  change (x.andThen f).outcome = _
  unfold andThen
  cases x.outcome <;> rfl

@[simp] theorem outcome_ofExcept (outcome : Except Fault α) :
    (ofExcept outcome).outcome = outcome :=
  rfl

@[simp] theorem events_ofExcept (outcome : Except Fault α) : (ofExcept outcome).events = [] :=
  rfl

@[simp] theorem outcome_reportAll (events : List Event) : (reportAll events).outcome = .ok () :=
  rfl

@[simp] theorem events_reportAll (events : List Event) : (reportAll events).events = events :=
  rfl

@[simp] theorem outcome_report (event : Event) : (report event).outcome = .ok () :=
  rfl

@[simp] theorem events_report (event : Event) : (report event).events = [event] :=
  rfl

theorem bind_of_ok {x : Traced α} {a : α} (f : α → Traced β) (h : x.outcome = .ok a) :
    x >>= f = ⟨(f a).outcome, x.events ++ (f a).events⟩ := by
  change x.andThen f = _
  unfold andThen
  rw [h]

theorem bind_of_error {x : Traced α} {fault : Fault} (f : α → Traced β)
    (h : x.outcome = .error fault) : x >>= f = ⟨.error fault, x.events⟩ := by
  change x.andThen f = _
  unfold andThen
  rw [h]

theorem outcome_bind_eq_ok {x : Traced α} {f : α → Traced β} {b : β} :
    (x >>= f).outcome = .ok b ↔ ∃ a, x.outcome = .ok a ∧ (f a).outcome = .ok b := by
  rw [outcome_bind]
  cases x.outcome with
  | error fault => exact ⟨fun h => (nomatch h), fun ⟨_, h, _⟩ => (nomatch h)⟩
  | ok a => exact ⟨fun h => ⟨a, rfl, h⟩, fun ⟨_, h, hb⟩ => by cases h; exact hb⟩

@[simp] theorem outcome_reportFailure (x : Traced α) : x.reportFailure.outcome = x.outcome := by
  unfold reportFailure
  split <;> rfl

end Traced

end StackLift
