import Mathlib.Tactic.Common

/-!
# Runs and simulations

Runs of a labelled transition relation, and the two rules for reasoning about
them: an invariant that every step keeps holds at the end of every run, and a
relation that every step of one system can follow in another carries whole runs
over, label by label.
-/

namespace Simulation

variable {State State' Label : Type*}

/-- `Run step start labels final`: the steps `labels` lead from `start` to `final`. -/
inductive Run (step : State → Label → State → Prop) : State → List Label → State → Prop
  | nil (state : State) : Run step state [] state
  | cons {start next final : State} {label : Label} {labels : List Label} :
      step start label next → Run step next labels final → Run step start (label :: labels) final

variable {labels : List Label} {start final : State} {step : State → Label → State → Prop}

/-- What every step keeps, a run keeps. -/
theorem Run.invariant {inv : State → Prop}
    (hstep : ∀ {start label next}, inv start → step start label next → inv next)
    (hrun : Run step start labels final)
    (hstart : inv start) : inv final := by
  induction hrun with
  | nil => exact hstart
  | cons ha _ ih => exact ih (hstep hstart ha)

theorem Run.mono {step' : State → Label → State → Prop}
    (hstep : ∀ {start label next}, step start label next → step' start label next)
    (hrun : Run step start labels final) :
    Run step' start labels final := by
  induction hrun with
  | nil => exact .nil _
  | cons ha _ ih => exact .cons (hstep ha) ih

theorem run_append_iff {labels' : List Label} :
    Run step start (labels ++ labels') final ↔
      ∃ middle, Run step start labels middle ∧ Run step middle labels' final := by
  induction labels generalizing start with
  | nil =>
    constructor
    · exact fun hrun => ⟨start, .nil start, hrun⟩
    · rintro ⟨middle, hnil, hrun⟩
      cases hnil
      exact hrun
  | cons label labels ih =>
    constructor
    · rintro (_ | ⟨ha, hrest⟩)
      obtain ⟨middle, hrun, hrun'⟩ := ih.mp hrest
      exact ⟨middle, .cons ha hrun, hrun'⟩
    · rintro ⟨middle, _ | ⟨ha, hrest⟩, hrun'⟩
      exact .cons ha (ih.mpr ⟨middle, hrest, hrun'⟩)

theorem run_singleton_iff {label : Label} :
    Run step start [label] final ↔ step start label final := by
  constructor
  · rintro (_ | ⟨ha, _ | _⟩)
    exact ha
  · exact fun hstep => .cons hstep (.nil final)

/-- Where each step has one result, each run has one. -/
theorem Run.unique
    (hstep : ∀ {start label next next'}, step start label next → step start label next' →
      next = next') {final' : State}
    (hrun : Run step start labels final) (hrun' : Run step start labels final') :
    final = final' := by
  induction hrun with
  | nil => cases hrun' with
    | nil => rfl
  | cons ha hrest ih => cases hrun' with
    | cons ha' hrest' =>
      obtain rfl := hstep ha ha'
      exact ih hrest'

/-- A simulation: each step is matched by a step with the same label. -/
theorem Run.simulate {step' : State' → Label → State' → Prop} {rel : State → State' → Prop}
    (hstep : ∀ {start start' label next}, rel start start' → step start label next →
      ∃ next', step' start' label next' ∧ rel next next')
    (hrun : Run step start labels final) {start' : State'}
    (hstart : rel start start') :
    ∃ final', Run step' start' labels final' ∧ rel final final' := by
  induction hrun generalizing start' with
  | nil => exact ⟨start', .nil start', hstart⟩
  | cons ha _ ih =>
    obtain ⟨next', ha', hnx⟩ := hstep hstart ha
    obtain ⟨final', hrest', hfinal⟩ := ih hnx
    exact ⟨final', .cons ha' hrest', hfinal⟩

end Simulation
