import Mathlib.Tactic.Common

/-!
# Programs that question a changing environment

A `Program` asks its environment one question at a time and continues with the answer.  Between
two questions the environment may change, so that the answers need not come from one state.

Two judgements about such programs:

* `Ensures possible post`: as long as every answer is a possible one, the result satisfies `post`;
* `Conforms protocol phase`: from `phase` on, the questions are those that the protocol allows.

Both hold of what is left of a program after a possible answer, and both have a rule for `bind`.
-/

namespace Interaction

/-- A tree of questions, with a branch for each answer. -/
inductive Program (Op : Type) (Answer : Op → Type) (α : Type) where
  | done (result : α)
  | ask (op : Op) (resume : Answer op → Program Op Answer α)

/-- What may be asked in each phase, which answers are possible, and to which phase they lead.
Programs end in the phase `idle`. -/
structure Protocol (Op : Type) (Answer : Op → Type) (Phase : Type) where
  allowed : Phase → Op → Prop
  possible : ∀ op, Answer op → Prop
  next : Phase → ∀ op, Answer op → Phase
  idle : Phase

namespace Program

variable {Op : Type} {Answer : Op → Type} {Phase α β : Type}

def bind (program : Program Op Answer α) (next : α → Program Op Answer β) :
    Program Op Answer β :=
  match program with
  | done result => next result
  | ask op resume => ask op fun answer => (resume answer).bind next

instance : Monad (Program Op Answer) where
  pure := done
  bind := bind

/-- The program that asks one question and returns the answer. -/
def query (op : Op) : Program Op Answer (Answer op) :=
  ask op done

/-- The result in an environment that does not change. -/
def eval (answers : ∀ op, Answer op) : Program Op Answer α → α
  | done result => result
  | ask op resume => (resume (answers op)).eval answers

/-- The result satisfies `post`, as long as every answer is a possible one. -/
def Ensures (possible : ∀ op, Answer op → Prop) (post : α → Prop) : Program Op Answer α → Prop
  | done result => post result
  | ask op resume => ∀ answer, possible op answer → (resume answer).Ensures possible post

/-- From the given phase on, the questions are those that the protocol allows. -/
def Conforms (protocol : Protocol Op Answer Phase) : Phase → Program Op Answer α → Prop
  | phase, done _ => phase = protocol.idle
  | phase, ask op resume => protocol.allowed phase op ∧
      ∀ answer, protocol.possible op answer →
        (resume answer).Conforms protocol (protocol.next phase op answer)

variable {ans : ∀ op, Answer op} {possible possible' : ∀ op, Answer op → Prop}
  {post post' : α → Prop} {protocol : Protocol Op Answer Phase}
variable {program : Program Op Answer α}

/-! ## What a program ensures -/

theorem Ensures.mono (h : program.Ensures possible post)
    (hpossible : ∀ op answer, possible' op answer → possible op answer)
    (hpost : ∀ res, post res → post' res) : program.Ensures possible' post' := by
  induction program with
  | done res => exact hpost res h
  | ask op resume ih =>
    intro answer hanswer
    exact ih answer (h answer (hpossible op answer hanswer))

theorem Ensures.imp (h : program.Ensures possible post) (hpost : ∀ res, post res → post' res) :
    program.Ensures possible post' :=
  h.mono (fun _ _ hanswer => hanswer) hpost

variable {next : α → Program Op Answer β}

theorem Ensures.bind {middle : α → Prop} {post : β → Prop}
    (h : program.Ensures possible middle)
    (hnx : ∀ result, middle result → (next result).Ensures possible post) :
    (program >>= next).Ensures possible post := by
  induction program with
  | done result => exact hnx result h
  | ask op resume ih =>
    intro answer hanswer
    exact ih answer (h answer hanswer)

theorem Ensures.trivial (program : Program Op Answer α) :
    program.Ensures possible fun _ => True := by
  induction program with
  | done res => exact True.intro
  | ask op resume ih => exact fun answer _ => ih answer

theorem Ensures.of_decide {p : Prop} [Decidable p] {post : Bool → Prop} (htrue : p → post true)
    (hfalse : ¬ p → post false) :
    (done (decide p) : Program Op Answer Bool).Ensures possible post := by
  by_cases h : p
  · exact (decide_eq_true h).symm ▸ htrue h
  · exact (decide_eq_false h).symm ▸ hfalse h

/-! ## Conforming to a protocol -/

theorem Conforms.bind {phase : Phase}
    (h : program.Conforms protocol phase)
    (hnx : ∀ result, (next result).Conforms protocol protocol.idle) :
    (program >>= next).Conforms protocol phase := by
  induction program generalizing phase with
  | done result =>
    rw [show phase = protocol.idle from h]
    exact hnx result
  | ask op resume ih => exact ⟨h.1, fun answer hanswer => ih answer (h.2 answer hanswer)⟩

/-- What is ensured comes about in an environment that does not change, if it answers the questions
that the protocol allows. -/
theorem Ensures.eval {phase : Phase} (h : program.Ensures possible post)
    (hconforms : program.Conforms protocol phase)
    (hans : ∀ phase op, protocol.allowed phase op →
      possible op (ans op) ∧ protocol.possible op (ans op)) :
    post (program.eval ans) := by
  induction program generalizing phase with
  | done res => exact h
  | ask op resume ih =>
    obtain ⟨hpossible, hprotocol⟩ := hans phase op hconforms.1
    exact ih (ans op) (h _ hpossible) (hconforms.2 _ hprotocol)

end Program

end Interaction
