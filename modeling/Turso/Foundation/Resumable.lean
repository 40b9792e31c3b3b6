import Mathlib.Tactic.Common

/-!
# Resumable operations

An operation that may have to wait is a loop over a saved state: each turn reads some answers
of its environment and goes on, yields to its caller, or finishes.  A caller that was yielded
to calls again, and the operation goes on from its saved state.

`Completes turn start final` says that the operation finishes in `final` whatever the
environment answers, so that it does not depend on where it yields.  A proof follows the
turns: `Completes.step` for a turn that does not depend on the answers, `Completes.wait` for
one that may have to be repeated a number of times before it succeeds.
-/

namespace Resumable

variable {State State' Answer : Type*}

/-- The outcome of one turn, with the answers that are left. -/
inductive Turn (State Answer : Type*) where
  | again (state : State) (answers : List Answer)
  | yield (state : State) (answers : List Answer)
  | done (state : State)
  | failed

/-- Where a turn leaves an operation that is not finished: a yield is followed by a new call. -/
inductive Turn.Resumes : Turn State Answer → State → List Answer → Prop
  | again (state : State) (answers : List Answer) : Resumes (.again state answers) state answers
  | yield (state : State) (answers : List Answer) : Resumes (.yield state answers) state answers

/-- Apply `step` to the state of an unfinished turn and `finish` to that of the last. -/
def Turn.map (step finish : State → State') : Turn State Answer → Turn State' Answer
  | .again state answers => .again (step state) answers
  | .yield state answers => .yield (step state) answers
  | .done state => .done (finish state)
  | .failed => .failed

/-- Run an operation to its end, calling again whenever it yields. -/
def drive (turn : List Answer → State → Turn State Answer) :
    ℕ → List Answer → State → Option State
  | 0, _, _ => none
  | fuel + 1, answers, state =>
    match turn answers state with
    | .again next rest => drive turn fuel rest next
    | .yield next rest => drive turn fuel rest next
    | .done final => some final
    | .failed => none

/-- The operation finishes in `final`, whatever the answers are. -/
def Completes (turn : List Answer → State → Turn State Answer) (start final : State) : Prop :=
  ∀ answers, ∃ fuel, drive turn fuel answers start = some final

variable {turn : List Answer → State → Turn State Answer}

theorem drive_of_resumes {ans rest : List Answer} {s next : State} (fuel : ℕ)
    (hturn : (turn ans s).Resumes next rest) :
    drive turn (fuel + 1) ans s = drive turn fuel rest next := by
  rw [drive]
  generalize turn ans s = res at hturn
  cases hturn with
  | again => rfl
  | yield => rfl

variable {start next final : State}

theorem Completes.done (hturn : ∀ ans, turn ans start = .done final) :
    Completes turn start final := by
  intro ans
  exact ⟨1, by rw [drive, hturn]⟩

theorem Completes.step (hturn : ∀ ans, ∃ rest, (turn ans start).Resumes next rest)
    (hnx : Completes turn next final) : Completes turn start final := by
  intro ans
  obtain ⟨rest, hresumes⟩ := hturn ans
  obtain ⟨fuel, hfuel⟩ := hnx rest
  exact ⟨fuel + 1, (drive_of_resumes fuel hresumes).trans hfuel⟩

theorem Completes.again (hturn : ∀ answers, turn answers start = .again next answers)
    (hnx : Completes turn next final) : Completes turn start final := by
  refine Completes.step (fun answers => ⟨answers, ?_⟩) hnx
  rw [hturn]
  exact .again _ _

variable {waiting : State → Prop}

/-- From every waiting state the operation finishes, or a turn uses up an answer and waits on. -/
theorem Completes.of_waiting
    (hturn : ∀ s, waiting s → ∀ ans, (∃ fuel, drive turn fuel ans s = some final) ∨
        ∃ first rest state', ans = first :: rest ∧ waiting state' ∧
          (turn ans s).Resumes state' rest)
    (hstart : waiting start) : Completes turn start final := by
  intro ans
  induction ans generalizing start with
  | nil =>
    rcases hturn start hstart [] with hfuel | ⟨first, rest, state', heq, -, -⟩
    · exact hfuel
    · cases heq
  | cons first rest ih =>
    rcases hturn start hstart (first :: rest) with
      hfuel | ⟨first', rest', state', heq, hwaiting, hresumes⟩
    · exact hfuel
    · obtain ⟨rfl, rfl⟩ := List.cons.inj heq
      obtain ⟨fuel, hfuel⟩ := ih hwaiting
      exact ⟨fuel + 1, (drive_of_resumes fuel hresumes).trans hfuel⟩

/-- From every waiting state a turn reaches `next`, or uses up an answer and waits on. -/
theorem Completes.wait
    (hturn : ∀ s, waiting s → ∀ ans, (∃ rest, (turn ans s).Resumes next rest) ∨
        ∃ a rest s', ans = a :: rest ∧ waiting s' ∧ (turn ans s).Resumes s' rest)
    (hstart : waiting start) (hnx : Completes turn next final) : Completes turn start final := by
  refine Completes.of_waiting (fun s hs ans => ?_) hstart
  refine (hturn s hs ans).imp_left ?_
  rintro ⟨rest, hresumes⟩
  obtain ⟨fuel, hfuel⟩ := hnx rest
  exact ⟨fuel + 1, (drive_of_resumes fuel hresumes).trans hfuel⟩

/-- From every waiting state a turn does what one from `next` does, or uses up an answer and
waits on. -/
theorem Completes.redirect
    (hturn : ∀ s, waiting s → ∀ ans, (∃ rest, turn ans s = turn rest next) ∨
        ∃ a rest s', ans = a :: rest ∧ waiting s' ∧ (turn ans s).Resumes s' rest)
    (hstart : waiting start) (hnx : Completes turn next final) : Completes turn start final := by
  refine Completes.of_waiting (fun s hs ans => ?_) hstart
  refine (hturn s hs ans).imp_left ?_
  rintro ⟨rest, heq⟩
  obtain ⟨fuel, hfuel⟩ := hnx rest
  refine ⟨fuel, ?_⟩
  cases fuel with
  | zero => cases hfuel
  | succ fuel =>
    rw [drive, heq]
    rwa [drive] at hfuel

theorem Completes.of_turn_eq (hturn : ∀ ans, turn ans start = turn ans next)
    (hnx : Completes turn next final) : Completes turn start final := by
  refine @Completes.redirect _ _ _ _ _ _ (· = start) ?_ rfl hnx
  rintro s rfl ans
  exact .inl ⟨ans, hturn ans⟩

variable {turn' : List Answer → State' → Turn State' Answer}

theorem drive_map {step finish : State → State'}
    (hturn : ∀ ans s, turn' ans (step s) = (turn ans s).map step finish)
    {fuel : ℕ} {ans : List Answer} (hdrive : drive turn fuel ans start = some final) :
    drive turn' fuel ans (step start) = some (finish final) := by
  induction fuel generalizing ans start with
  | zero => cases hdrive
  | succ fuel ih =>
    rw [drive] at hdrive ⊢
    rw [hturn]
    cases hres : turn ans start with
    | again next rest | yield next rest =>
      rw [hres] at hdrive
      exact ih hdrive
    | done s =>
      rw [hres] at hdrive
      exact congrArg (some ∘ finish) (Option.some.inj hdrive)
    | failed =>
      rw [hres] at hdrive
      cases hdrive

/-- An operation inside a larger one. -/
theorem Completes.lift {step finish : State → State'}
    (hturn : ∀ ans s, turn' ans (step s) = (turn ans s).map step finish)
    {start final : State} (h : Completes turn start final) :
    Completes turn' (step start) (finish final) := by
  intro ans
  obtain ⟨fuel, hfuel⟩ := h ans
  exact ⟨fuel, drive_map hturn hfuel⟩

/-- The operation, completed `count` times in a row. -/
inductive Repeats (turn : List Answer → State → Turn State Answer) : ℕ → State → State → Prop
  | zero (state : State) : Repeats turn 0 state state
  | succ {count : ℕ} {start state final : State} :
      Repeats turn count start state → Completes turn state final →
        Repeats turn (count + 1) start final

end Resumable
