import Dime.Foundation.Dialogue

/-!
# Programs that are run in parts

A program runs from one message to the next. A program reads what it is answered if it
asks only when nothing is due, and waits for no more messages than an answer has.
-/

namespace Dialogue

variable {Env Self Err Req Msg α β : Type}

/-- How a program has ended. -/
def Outcome.ofExcept : Except Err α → Outcome Err α
  | .ok a => .done a
  | .error err => .raised err

/-- Where a program stops: it is over, or it waits for a message. -/
inductive Pause (Self Err Req Msg α : Type) where
  | settled (result : Except Err α)
  | exhausted
  | awaiting (next : Msg → Prog Self Err Req Msg α)

namespace Prog

/-- Run a program up to where it stops, with the requests that it sends. -/
def proceed : Prog Self Err Req Msg α → Self → Self × List Req × Pause Self Err Req Msg α
  | .done a, self => (self, [], .settled (.ok a))
  | .raise err, self => (self, [], .settled (.error err))
  | .exhausted, self => (self, [], .exhausted)
  | .get next, self => (next self).proceed self
  | .put self next, _ => next.proceed self
  | .send request next, self =>
      let rest := next.proceed self
      (rest.1, request :: rest.2.1, rest.2.2)
  | .recv next, self => (self, [], .awaiting next)

/-- With some messages due, a program waits for messages that are due only, asks when
none is, and leaves its state as it is. What is due at the end satisfies `post`. -/
def Reads (proper : Req → List Msg → Prop) (post : α → List Msg → Prop) :
    Prog Self Err Req Msg α → List Msg → Prop
  | .done a, due => post a due
  | .raise _, _ => True
  | .exhausted, _ => False
  | .get next, due => ∀ self, (next self).Reads proper post due
  | .put _ _, _ => False
  | .send request next, due => due = [] ∧ ∀ answer, proper request answer → next.Reads proper post answer
  | .recv _, [] => False
  | .recv next, message :: due => (next message).Reads proper post due

variable {proper : Req → List Msg → Prop} {post : α → List Msg → Prop}
  {post' : β → List Msg → Prop} {due : List Msg}

theorem Reads.bind {p : Prog Self Err Req Msg α} {f : α → Prog Self Err Req Msg β}
    (h : p.Reads proper post due) (hf : ∀ a due, post a due → (f a).Reads proper post' due) :
    (p.bind f).Reads proper post' due := by
  induction p generalizing due with
  | done a => exact hf a due h
  | raise err => trivial
  | exhausted => exact h
  | get next ih => exact fun self => ih self (h self)
  | put self next ih => exact h
  | send request next ih => exact ⟨h.1, fun answer hanswer => ih (h.2 answer hanswer)⟩
  | recv next ih =>
      cases due with
      | nil => exact h
      | cons message due => exact ih message h

theorem Reads.imp {post post' : α → List Msg → Prop} {p : Prog Self Err Req Msg α}
    (h : p.Reads proper post due) (himp : ∀ a due, post a due → post' a due) :
    p.Reads proper post' due := by
  induction p generalizing due with
  | done a => exact himp a due h
  | raise err => trivial
  | exhausted => exact h
  | get next ih => exact fun self => ih self (h self)
  | put self next ih => exact h
  | send request next ih => exact ⟨h.1, fun answer hanswer => ih (h.2 answer hanswer)⟩
  | recv next ih =>
      cases due with
      | nil => exact h
      | cons message due => exact ih message h

/-- A computation that may fail. -/
theorem Reads.ofExcept {result : Except Err α} (h : ∀ a, result = .ok a → post a due) :
    (ofExcept result : Prog Self Err Req Msg α).Reads proper post due := by
  cases result with
  | ok a => exact h a rfl
  | error err => trivial

end Prog

namespace Pause

/-- What the program makes of messages after the place where it stopped. -/
def outcome (pause : Pause Self Err Req Msg α) (self : Self) (messages : List Msg) : Outcome Err α :=
  match pause with
  | .settled result => .ofExcept result
  | .exhausted => .exhausted
  | .awaiting next => (hear (.recv next) self messages).outcome

/-- With some messages due, the program waits for one of them, or it is over. -/
def Reads (proper : Req → List Msg → Prop) (post : α → List Msg → Prop)
    (pause : Pause Self Err Req Msg α) (due : List Msg) : Prop :=
  match pause with
  | .settled _ => True
  | .exhausted => False
  | .awaiting next => (Prog.recv next).Reads proper post due

end Pause

variable {proper : Req → List Msg → Prop} {post : α → List Msg → Prop} {due : List Msg}

/-- To stop a program in between makes no difference. -/
theorem Prog.outcome_proceed (p : Prog Self Err Req Msg α) (self : Self) (messages : List Msg) :
    (hear p self messages).outcome = (p.proceed self).2.2.outcome (p.proceed self).1 messages := by
  induction p generalizing self with
  | done a => rfl
  | raise err => rfl
  | exhausted => rfl
  | get next ih => exact ih self self
  | put self' next ih => exact ih self'
  | send request next ih =>
      have hsend : (hear (.send request next) self messages).outcome = (hear next self messages).outcome := by
        simp [hear, run, silent]
      rw [hsend]
      exact ih self
  | recv next _ => rfl

/-- Where such a program stops, it has asked for nothing and waits for what is due, or
nothing was due and it waits for the answer to one request. -/
theorem Prog.Reads.proceed {p : Prog Self Err Req Msg α} (h : p.Reads proper post due)
    (hnonempty : ∀ request answer, proper request answer → answer ≠ [])
    (hanswer : ∀ request, ∃ answer, proper request answer) (self : Self) :
    (p.proceed self).1 = self ∧
      (((p.proceed self).2.1 = [] ∧ (p.proceed self).2.2.Reads proper post due) ∨
        ∃ request, (p.proceed self).2.1 = [request] ∧ due = [] ∧
          ∀ answer, proper request answer → (p.proceed self).2.2.Reads proper post answer) := by
  induction p generalizing due with
  | done a => exact ⟨rfl, .inl ⟨rfl, trivial⟩⟩
  | raise err => exact ⟨rfl, .inl ⟨rfl, trivial⟩⟩
  | exhausted => exact absurd h id
  | get next ih => exact ih self (h self)
  | put self' next ih => exact absurd h id
  | send request next ih =>
      obtain ⟨hdue, hnext⟩ := h
      -- after a request there is no other one before the answer
      have hquiet : ∀ answer, proper request answer → (next.proceed self).1 = self ∧
          (next.proceed self).2.1 = [] ∧ (next.proceed self).2.2.Reads proper post answer := by
        intro answer hproper
        obtain ⟨hself, ⟨hnone, hreads⟩ | ⟨_, _, hempty, _⟩⟩ := ih (hnext answer hproper)
        · exact ⟨hself, hnone, hreads⟩
        · exact absurd hempty (hnonempty request answer hproper)
      obtain ⟨answer, hproper⟩ := hanswer request
      obtain ⟨hself, hnone, _⟩ := hquiet answer hproper
      exact ⟨hself, .inr ⟨request, congrArg (request :: ·) hnone, hdue,
        fun answer hproper => (hquiet answer hproper).2.2⟩⟩
  | recv next _ => exact ⟨rfl, .inl ⟨rfl, h⟩⟩

end Dialogue
