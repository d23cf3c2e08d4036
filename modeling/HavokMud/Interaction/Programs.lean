import Mathlib.Logic.Function.Basic
import Mathlib.Logic.Relation

/-!
# Programs that ask

A program is a tree of questions to the outside: it is done, it fails, or it asks and goes on with
the answer.  `Along` says of a program what holds at every question, whatever admitted answers were
given before, and of its result.  `Returns` says which result it has under given answers, and
`runOn` runs it with a server.
-/

namespace HavokMud.Interaction

/-- A program that asks questions of type `Op`. -/
inductive Program (Op : Type) (Ans : Op → Type) (α : Type) : Type
  | done (value : α)
  | fault
  | ask (op : Op) (next : Ans op → Program Op Ans α)

namespace Program

variable {Op : Type} {Ans : Op → Type} {α β : Type}

protected def bind : Program Op Ans α → (α → Program Op Ans β) → Program Op Ans β
  | done value, f => f value
  | fault, _ => fault
  | ask op next, f => ask op fun ans ↦ (next ans).bind f

instance instMonadProgram : Monad (Program Op Ans) where
  pure := done
  bind := Program.bind

/-- The program that asks one question. -/
def question (op : Op) : Program Op Ans (Ans op) :=
  ask op done

section Along

variable {σ : Type} (admits : (op : Op) → Ans op → Prop) (see : σ → (op : Op) → Ans op → σ)
  (pre : σ → Op → Prop)

/-- Every question that is asked meets `pre`, and the result meets `post`, if all answers are
admitted.  What was seen of the answers is kept in a view. -/
def Along (post : σ → α → Prop) : σ → Program Op Ans α → Prop
  | view, done value => post view value
  | _, fault => True
  | view, ask op next =>
      pre view op ∧ ∀ ans, admits op ans → Along post (see view op ans) (next ans)

variable {admits see pre}

theorem Along.bind {post : σ → β → Prop} {f : α → Program Op Ans β} {program : Program Op Ans α}
    {view : σ}
    (h : Along admits see pre (fun view value ↦ Along admits see pre post view (f value)) view
      program) :
    Along admits see pre post view (program >>= f) := by
  induction program generalizing view with
  | done value => exact h
  | fault => trivial
  | ask op next ih =>
      refine ⟨h.1, ?_⟩
      intro ans hans
      exact ih ans (h.2 ans hans)

theorem Along.mono {post post' : σ → α → Prop} {program : Program Op Ans α} {view : σ}
    (h : Along admits see pre post view program)
    (hpost : ∀ view value, post view value → post' view value) :
    Along admits see pre post' view program := by
  induction program generalizing view with
  | done value => exact hpost view value h
  | fault => trivial
  | ask op next ih =>
      refine ⟨h.1, ?_⟩
      intro ans hans
      exact ih ans (h.2 ans hans)

/-- One question and its answer. -/
theorem along_question {post : σ → β → Prop} {op : Op} {f : Ans op → Program Op Ans β} {view : σ}
    (hpre : pre view op)
    (hnext : ∀ ans, admits op ans → Along admits see pre post (see view op ans) (f ans)) :
    Along admits see pre post view (question op >>= f) :=
  ⟨hpre, hnext⟩

end Along

/-! ## Results under given answers -/

/-- A program returns a value after these questions and answers. -/
inductive Returns : Program Op Ans α → List (Sigma Ans) → α → Prop
  | done (value : α) : Returns (done value) [] value
  | ask {op : Op} {next : Ans op → Program Op Ans α} {ans : Ans op} {calls : List (Sigma Ans)}
      {value : α} (h : Returns (next ans) calls value) :
        Returns (ask op next) (⟨op, ans⟩ :: calls) value

theorem returns_pure {value value' : α} {calls : List (Sigma Ans)} :
    (pure value : Program Op Ans α).Returns calls value' ↔ calls = [] ∧ value' = value := by
  constructor
  · intro h
    cases h
    exact ⟨rfl, rfl⟩
  · rintro ⟨rfl, rfl⟩
    exact .done _

theorem not_returns_fault {value : α} {calls : List (Sigma Ans)} :
    ¬ (fault : Program Op Ans α).Returns calls value := by
  intro h
  cases h

theorem returns_question_bind {op : Op} {f : Ans op → Program Op Ans β} {value : β}
    {calls : List (Sigma Ans)} :
    (question op >>= f).Returns calls value ↔
      ∃ ans rest, calls = ⟨op, ans⟩ :: rest ∧ (f ans).Returns rest value := by
  constructor
  · intro h
    cases h with
    | ask h => exact ⟨_, _, rfl, h⟩
  · rintro ⟨ans, rest, rfl, h⟩
    exact .ask h

theorem returns_bind {program : Program Op Ans α} {f : α → Program Op Ans β} {value : β}
    {calls : List (Sigma Ans)} :
    (program >>= f).Returns calls value ↔
      ∃ first middle rest, calls = first ++ rest ∧ program.Returns first middle ∧
        (f middle).Returns rest value := by
  induction program generalizing calls with
  | done middle =>
      constructor
      · intro h
        exact ⟨[], middle, calls, rfl, .done middle, h⟩
      · rintro ⟨first, middle', rest, rfl, hfirst, hrest⟩
        cases hfirst
        exact hrest
  | fault =>
      constructor
      · intro h
        cases h
      · rintro ⟨first, middle, rest, rfl, hfirst, -⟩
        cases hfirst
  | ask op next ih =>
      constructor
      · intro h
        cases h with
        | @ask _ _ ans calls _ h =>
            obtain ⟨first, middle, rest, rfl, hfirst, hrest⟩ := (ih ans).mp h
            exact ⟨⟨op, ans⟩ :: first, middle, rest, rfl, .ask hfirst, hrest⟩
      · rintro ⟨first, middle, rest, rfl, hfirst, hrest⟩
        cases hfirst with
        | ask h => exact .ask ((ih _).mpr ⟨_, middle, rest, rfl, h, hrest⟩)

/-! ## Runs with a server -/

section Server

variable {σ : Type} (serve : σ → (op : Op) → Option (σ × Ans op))

/-- A server answers the questions one after the other, if it can. -/
def runOn : σ → Program Op Ans α → Option (σ × α)
  | s, done value => some (s, value)
  | _, fault => none
  | s, ask op next => (serve s op).bind fun answer ↦ runOn answer.1 (next answer.2)

@[simp]
theorem runOn_pure (s : σ) (value : α) :
    runOn serve s (pure value : Program Op Ans α) = some (s, value) := rfl

@[simp]
theorem runOn_fault (s : σ) : runOn serve s (fault : Program Op Ans α) = none := rfl

@[simp]
theorem runOn_question (s : σ) (op : Op) : runOn serve s (question op) = serve s op := by
  change ((serve s op).bind fun answer ↦ some (answer.1, answer.2)) = serve s op
  exact Option.bind_fun_some _

theorem runOn_bind (s : σ) (program : Program Op Ans α) (f : α → Program Op Ans β) :
    runOn serve s (program >>= f) =
      (runOn serve s program).bind fun result ↦ runOn serve result.1 (f result.2) := by
  induction program generalizing s with
  | done value => rfl
  | fault => rfl
  | ask op next ih =>
      change ((serve s op).bind fun answer ↦ runOn serve answer.1 (next answer.2 >>= f)) =
        ((serve s op).bind fun answer ↦ runOn serve answer.1 (next answer.2)).bind _
      rw [Option.bind_assoc]
      congr 1
      funext answer
      exact ih answer.2 answer.1

end Server

end Program

end HavokMud.Interaction
