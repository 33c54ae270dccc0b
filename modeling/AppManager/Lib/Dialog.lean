import Mathlib.Data.List.Basic

/-! Code that asks questions and goes on with their answers, whenever they come, and
the acts it does in between. -/

namespace AppManager.Lib

inductive Dialog (Question : Type) (Answer : Question → Type) (Act : Type) where
  | ended
  | perform (act : Act) (next : Dialog Question Answer Act)
  | ask (question : Question) (resume : Answer question → Dialog Question Answer Act)

/-- What happened: a question and its answer, or an act. -/
inductive Step (Question : Type) (Answer : Question → Type) (Act : Type) where
  | asked (question : Question) (answer : Answer question)
  | acted (act : Act)

namespace Dialog

variable {Question Act : Type} {Answer : Question → Type}

/-- The history at the end, when each answer depends on what happened before. -/
def history (answers : List (Step Question Answer Act) → (question : Question) → Answer question) :
    Dialog Question Answer Act → List (Step Question Answer Act) → List (Step Question Answer Act)
  | .ended, before => before
  | .perform act next, before => history answers next (before ++ [.acted act])
  | .ask question resume, before =>
    history answers (resume (answers before question)) (before ++ [.asked question (answers before question)])

/-- Whatever the answers, the history ends as wanted. -/
def Ensures (dialog : Dialog Question Answer Act) (before : List (Step Question Answer Act))
    (wanted : List (Step Question Answer Act) → Prop) : Prop :=
  ∀ answers, wanted (dialog.history answers before)

variable {before : List (Step Question Answer Act)} {wanted : List (Step Question Answer Act) → Prop}

theorem ensures_ended (done : wanted before) : (ended : Dialog Question Answer Act).Ensures before wanted :=
  fun _ => done

theorem ensures_perform {act : Act} {next : Dialog Question Answer Act}
    (after : next.Ensures (before ++ [.acted act]) wanted) : (Dialog.perform act next).Ensures before wanted :=
  fun answers => after answers

theorem ensures_ask {question : Question} {resume : Answer question → Dialog Question Answer Act}
    (after : ∀ answer, (resume answer).Ensures (before ++ [.asked question answer]) wanted) :
    (Dialog.ask question resume).Ensures before wanted :=
  fun answers => after (answers before question) answers

end Dialog

end AppManager.Lib
