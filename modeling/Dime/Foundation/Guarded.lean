import Dime.Foundation.Dialogue

/-!
# Conditions on the state of a program

Pre- and postconditions of programs that exchange messages: from a state on, a program
sends requests of a kind only, whatever it reads, and leaves a state of a kind behind.
-/

namespace Dialogue.Prog

variable {Env Self Err Req Msg α β : Type} {P : Req → Prop} {I J : Self → Prop}

/-- In this state, every request that the program may send satisfies `P`, and where it returns or
raises the state satisfies `I`. -/
def Guarded (P : Req → Prop) (I : Self → Prop) : Prog Self Err Req Msg α → Self → Prop
  | .done _, self | .raise _, self => I self
  | .exhausted, _ => True
  | .get next, self => (next self).Guarded P I self
  | .put self next, _ => next.Guarded P I self
  | .send request next, self => P request ∧ next.Guarded P I self
  | .recv next, self => ∀ message, (next message).Guarded P I self

/-- The program keeps the states with `I`, and sends requests with `P` only. -/
def Keeps (P : Req → Prop) (I : Self → Prop) (p : Prog Self Err Req Msg α) : Prop :=
  ∀ self, I self → p.Guarded P I self

section

variable {p : Prog Self Err Req Msg α} {self : Self}

theorem Guarded.mono (h : p.Guarded P I self) (hI : ∀ self, I self → J self) :
    p.Guarded P J self := by
  induction p generalizing self with
  | done a => exact hI self h
  | raise err => exact hI self h
  | exhausted => trivial
  | get next ih => exact ih self h
  | put self next ih => exact ih h
  | send request next ih => exact ⟨h.1, ih h.2⟩
  | recv next ih => exact fun message => ih message (h message)

theorem Guarded.bind {f : α → Prog Self Err Req Msg β} (h : p.Guarded P I self)
    (hraise : ∀ self, I self → J self) (hf : ∀ a self, I self → (f a).Guarded P J self) :
    (p.bind f).Guarded P J self := by
  induction p generalizing self with
  | done a => exact hf a self h
  | raise err => exact hraise self h
  | exhausted => trivial
  | get next ih => exact ih self h
  | put self next ih => exact ih h
  | send request next ih => exact ⟨h.1, ih h.2⟩
  | recv next ih => exact fun message => ih message (h message)

theorem Guarded.attempt (h : p.Guarded P I self) : p.attempt.Guarded P I self := by
  induction p generalizing self with
  | done a => exact h
  | raise err => exact h
  | exhausted => trivial
  | get next ih => exact ih self h
  | put self next ih => exact ih h
  | send request next ih => exact ⟨h.1, ih h.2⟩
  | recv next ih => exact fun message => ih message (h message)

/-- What is sent in a run. -/
theorem Guarded.of_mem (h : p.Guarded P I self) {answer : Env → Req → Env × List Msg} {env : Env}
    {inbox : List Msg} : ∀ request ∈ (run answer p self env inbox).requests, P request := by
  induction p generalizing self env inbox with
  | done a => simp [run]
  | raise err => simp [run]
  | exhausted => simp [run]
  | get next ih => exact ih self h
  | put self next ih => exact ih h
  | send request next ih =>
      intro request' hmem
      rcases List.mem_cons.mp hmem with rfl | hrest
      · exact h.1
      · exact ih h.2 request' hrest
  | recv next ih =>
      cases inbox with
      | nil => simp [run]
      | cons message inbox => exact ih message (h message)

end

section

variable {p : Prog Self Err Req Msg α}

theorem keeps_done (a : α) : (Prog.done a : Prog Self Err Req Msg α).Keeps P I := fun _ h => h

theorem keeps_raise (err : Err) : (Prog.raise err : Prog Self Err Req Msg α).Keeps P I :=
  fun _ h => h

theorem keeps_exhausted : (Prog.exhausted : Prog Self Err Req Msg α).Keeps P I :=
  fun _ _ => trivial

theorem keeps_get {next : Self → Prog Self Err Req Msg α}
    (h : ∀ self, I self → (next self).Guarded P I self) : (Prog.get next).Keeps P I := h

theorem keeps_modify {f : Self → Self} (h : ∀ self, I self → I (f self)) :
    (Prog.modify f : Prog Self Err Req Msg Unit).Keeps P I := h

theorem keeps_request {request : Req} (h : P request) :
    (Prog.request request : Prog Self Err Req Msg Unit).Keeps P I := fun _ hself => ⟨h, hself⟩

theorem keeps_message : (Prog.message : Prog Self Err Req Msg Msg).Keeps P I := fun _ h _ => h

theorem keeps_ofExcept (result : Except Err α) :
    (Prog.ofExcept result : Prog Self Err Req Msg α).Keeps P I := by
  cases result with
  | ok a => exact keeps_done a
  | error err => exact keeps_raise err

theorem Keeps.bind {f : α → Prog Self Err Req Msg β} (h : p.Keeps P I)
    (hf : ∀ a, (f a).Keeps P I) : (p.bind f).Keeps P I :=
  fun self hself => (h self hself).bind (fun _ h => h) hf

theorem Keeps.attempt (h : p.Keeps P I) : p.attempt.Keeps P I :=
  fun self hself => (h self hself).attempt

end

end Dialogue.Prog
