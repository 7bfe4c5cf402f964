import Mathlib.Data.List.Infix

/-!
# Programs that exchange messages

A program with a state of its own sends requests and waits for messages. What it
does depends on the messages that arrive and on their order only, so that it can
be run on its own against the messages that have arrived so far, or together with
an environment that answers every request.
-/

namespace Dialogue

variable {Env Self Err Req Msg α β : Type}

/-- A program. A loop that has used up its rounds is `exhausted`. -/
inductive Prog (Self Err Req Msg α : Type) where
  | done (a : α)
  | raise (err : Err)
  | exhausted
  | get (next : Self → Prog Self Err Req Msg α)
  | put (self : Self) (next : Prog Self Err Req Msg α)
  | send (request : Req) (next : Prog Self Err Req Msg α)
  | recv (next : Msg → Prog Self Err Req Msg α)

namespace Prog

/-- Run `f` on the result. -/
def bind : Prog Self Err Req Msg α → (α → Prog Self Err Req Msg β) → Prog Self Err Req Msg β
  | .done a, f => f a
  | .raise err, _ => .raise err
  | .exhausted, _ => .exhausted
  | .get next, f => .get fun self => (next self).bind f
  | .put self next, f => .put self (next.bind f)
  | .send request next, f => .send request (next.bind f)
  | .recv next, f => .recv fun message => (next message).bind f

instance : Monad (Prog Self Err Req Msg) where
  pure := .done
  bind := bind

/-- Go on with what was raised. -/
def attempt : Prog Self Err Req Msg α → Prog Self Err Req Msg (Except Err α)
  | .done a => .done (.ok a)
  | .raise err => .done (.error err)
  | .exhausted => .exhausted
  | .get next => .get fun self => (next self).attempt
  | .put self next => .put self next.attempt
  | .send request next => .send request next.attempt
  | .recv next => .recv fun message => (next message).attempt

def self : Prog Self Err Req Msg Self := .get .done

def modify (f : Self → Self) : Prog Self Err Req Msg Unit :=
  .get fun self => .put (f self) (.done ())

def request (request : Req) : Prog Self Err Req Msg Unit := .send request (.done ())

def message : Prog Self Err Req Msg Msg := .recv .done

/-- A computation that may fail. -/
def ofExcept : Except Err α → Prog Self Err Req Msg α
  | .ok a => .done a
  | .error err => .raise err

theorem bind_assoc {γ : Type} (p : Prog Self Err Req Msg α) (f : α → Prog Self Err Req Msg β)
    (g : β → Prog Self Err Req Msg γ) :
    (p.bind f).bind g = p.bind fun a => (f a).bind g := by
  induction p with
  | done a => rfl
  | raise err => rfl
  | exhausted => rfl
  | get next ih => exact congrArg Prog.get (funext ih)
  | put self next ih => exact congrArg (Prog.put self) ih
  | send request next ih => exact congrArg (Prog.send request) ih
  | recv next ih => exact congrArg Prog.recv (funext ih)

@[simp] theorem pure_eq (a : α) : (pure a : Prog Self Err Req Msg α) = .done a := rfl

@[simp] theorem bind_eq (p : Prog Self Err Req Msg α) (f : α → Prog Self Err Req Msg β) :
    p >>= f = p.bind f := rfl

end Prog

/-! ## Runs -/

/-- How a run ends; it is `waiting` where the next message has not arrived. -/
inductive Outcome (Err α : Type) where
  | done (a : α)
  | raised (err : Err)
  | exhausted
  | waiting
  deriving DecidableEq

/-- The program has returned or raised. -/
def Outcome.over : Outcome Err α → Bool
  | .done _ | .raised _ => true
  | .exhausted | .waiting => false

/-- What a run leaves: the state of the program and that of the environment, the
requests that were sent and the messages that were not read. -/
structure Ended (Env Self Err Req Msg α : Type) where
  outcome : Outcome Err α
  self : Self
  env : Env
  requests : List Req
  unread : List Msg

namespace Ended

/-- With the requests of an earlier part of the run. -/
def after (requests : List Req) (run : Ended Env Self Err Req Msg α) :
    Ended Env Self Err Req Msg α :=
  { run with requests := requests ++ run.requests }

@[simp] theorem after_nil (run : Ended Env Self Err Req Msg α) : run.after [] = run := rfl

@[simp] theorem after_after (first second : List Req) (run : Ended Env Self Err Req Msg α) :
    (run.after second).after first = run.after (first ++ second) := by
  simp [after]

@[simp] theorem after_outcome (requests : List Req) (run : Ended Env Self Err Req Msg α) :
    (run.after requests).outcome = run.outcome := rfl

@[simp] theorem after_self (requests : List Req) (run : Ended Env Self Err Req Msg α) :
    (run.after requests).self = run.self := rfl

@[simp] theorem after_env (requests : List Req) (run : Ended Env Self Err Req Msg α) :
    (run.after requests).env = run.env := rfl

@[simp] theorem after_requests (requests : List Req) (run : Ended Env Self Err Req Msg α) :
    (run.after requests).requests = requests ++ run.requests := rfl

@[simp] theorem after_unread (requests : List Req) (run : Ended Env Self Err Req Msg α) :
    (run.after requests).unread = run.unread := rfl

end Ended

/-- Run a program in an environment whose answers to a request arrive behind the
messages that are there. -/
def run (answer : Env → Req → Env × List Msg) :
    Prog Self Err Req Msg α → Self → Env → List Msg → Ended Env Self Err Req Msg α
  | .done a, self, env, inbox => ⟨.done a, self, env, [], inbox⟩
  | .raise err, self, env, inbox => ⟨.raised err, self, env, [], inbox⟩
  | .exhausted, self, env, inbox => ⟨.exhausted, self, env, [], inbox⟩
  | .get next, self, env, inbox => run answer (next self) self env inbox
  | .put self next, _, env, inbox => run answer next self env inbox
  | .send request next, self, env, inbox =>
      (run answer next self (answer env request).1 (inbox ++ (answer env request).2)).after [request]
  | .recv _, self, env, [] => ⟨.waiting, self, env, [], []⟩
  | .recv next, self, env, message :: inbox => run answer (next message) self env inbox

variable {answer : Env → Req → Env × List Msg} {self self' : Self} {env env' : Env}
  {inbox unread : List Msg} {requests : List Req}

attribute [local simp] Prog.bind run in
/-- The run of two programs in sequence: the second starts where the first is done. -/
theorem run_bind (p : Prog Self Err Req Msg α) (f : α → Prog Self Err Req Msg β) (self : Self)
    (env : Env) (inbox : List Msg) :
    run answer (p.bind f) self env inbox =
      let first := run answer p self env inbox
      match first.outcome with
      | .done a => (run answer (f a) first.self first.env first.unread).after first.requests
      | .raised err => { first with outcome := .raised err }
      | .exhausted => { first with outcome := .exhausted }
      | .waiting => { first with outcome := .waiting } := by
  induction p generalizing self env inbox with
  | done a => simp
  | raise err => simp
  | exhausted => simp
  | get next ih => simp only [Prog.bind, run, ih]
  | put self next ih => simp only [Prog.bind, run, ih]
  | send request next ih =>
      simp only [Prog.bind, run, ih, Ended.after_outcome]
      split <;> simp [Ended.after]
  | recv next ih =>
      cases inbox with
      | nil => simp
      | cons message inbox => simp only [Prog.bind, run, ih]

theorem run_bind_done {p : Prog Self Err Req Msg α} {a : α}
    (h : run answer p self env inbox = ⟨.done a, self', env', requests, unread⟩)
    (f : α → Prog Self Err Req Msg β) :
    run answer (p.bind f) self env inbox =
      (run answer (f a) self' env' unread).after requests := by
  rw [run_bind, h]

theorem run_bind_raised {p : Prog Self Err Req Msg α} {err : Err}
    (h : run answer p self env inbox = ⟨.raised err, self', env', requests, unread⟩)
    (f : α → Prog Self Err Req Msg β) :
    run answer (p.bind f) self env inbox = ⟨.raised err, self', env', requests, unread⟩ := by
  rw [run_bind, h]

theorem run_bind_exhausted {p : Prog Self Err Req Msg α}
    (h : (run answer p self env inbox).outcome = .exhausted) (f : α → Prog Self Err Req Msg β) :
    run answer (p.bind f) self env inbox =
      { run answer p self env inbox with outcome := .exhausted } := by
  rw [run_bind]
  simp only [h]

/-- The second of two programs starts from what the first one leaves. -/
theorem run_bind_of_outcome {p : Prog Self Err Req Msg α} {a : α}
    (h : (run answer p self env inbox).outcome = .done a) (f : α → Prog Self Err Req Msg β) :
    run answer (p.bind f) self env inbox =
      (run answer (f a) (run answer p self env inbox).self (run answer p self env inbox).env
        (run answer p self env inbox).unread).after (run answer p self env inbox).requests := by
  rw [run_bind]
  simp only [h]

/-- It sends nothing before. -/
theorem requests_bind {p : Prog Self Err Req Msg α}
    (h : ∀ a, (run answer p self env inbox).outcome ≠ .done a) (f : α → Prog Self Err Req Msg β) :
    (run answer (p.bind f) self env inbox).requests = (run answer p self env inbox).requests := by
  rw [run_bind]
  dsimp only
  split
  next a hdone => exact absurd hdone (h a)
  next => rfl
  next => rfl
  next => rfl

/-- A sequence that is done has a first part that is. -/
theorem done_of_bind {p : Prog Self Err Req Msg α} {f : α → Prog Self Err Req Msg β} {b : β}
    (h : (run answer (p.bind f) self env inbox).outcome = .done b) :
    ∃ a, (run answer p self env inbox).outcome = .done a ∧
      run answer (p.bind f) self env inbox =
        (run answer (f a) (run answer p self env inbox).self (run answer p self env inbox).env
          (run answer p self env inbox).unread).after (run answer p self env inbox).requests := by
  rw [run_bind] at h ⊢
  cases hfirst : (run answer p self env inbox).outcome with
  | done a =>
      refine ⟨a, rfl, ?_⟩
      simp only [hfirst]
  | raised err => simp [hfirst] at h
  | exhausted => simp [hfirst] at h
  | waiting => simp [hfirst] at h

attribute [local simp] Prog.attempt run in
theorem run_attempt (p : Prog Self Err Req Msg α) (self : Self) (env : Env) (inbox : List Msg) :
    run answer p.attempt self env inbox =
      let first := run answer p self env inbox
      { first with
        outcome := match first.outcome with
          | .done a => .done (.ok a)
          | .raised err => .done (.error err)
          | .exhausted => .exhausted
          | .waiting => .waiting } := by
  induction p generalizing self env inbox with
  | done a => simp
  | raise err => simp
  | exhausted => simp
  | get next ih => simp only [Prog.attempt, run, ih]
  | put self next ih => simp only [Prog.attempt, run, ih]
  | send request next ih => simp only [Prog.attempt, run, ih, Ended.after]
  | recv next ih =>
      cases inbox with
      | nil => simp
      | cons message inbox => simp only [Prog.attempt, run, ih]

variable (answer) in
/-- What comes after an attempt sends nothing before that is over. -/
theorem requests_attempt_bind (p : Prog Self Err Req Msg α) (f : Except Err α → Prog Self Err Req Msg β)
    (self : Self) (env : Env) (inbox : List Msg) : ∃ more,
      (run answer (p.attempt.bind f) self env inbox).requests =
        (run answer p self env inbox).requests ++ more ∧
      ((run answer p self env inbox).outcome.over = false → more = []) := by
  rw [run_bind, run_attempt]
  cases houtcome : (run answer p self env inbox).outcome with
  | done a => exact ⟨_, by simp only [houtcome]; rfl, fun hover => by cases hover⟩
  | raised err => exact ⟨_, by simp only [houtcome]; rfl, fun hover => by cases hover⟩
  | exhausted => exact ⟨[], by simp only [houtcome, List.append_nil], fun _ => rfl⟩
  | waiting => exact ⟨[], by simp only [houtcome, List.append_nil], fun _ => rfl⟩

@[simp] theorem run_ofExcept_unread (result : Except Err α) (self : Self) (env : Env)
    (inbox : List Msg) :
    (run answer (.ofExcept result) self env inbox).unread = inbox := by
  cases result with
  | ok a => rfl
  | error err => rfl

/-! ## The requests of a program -/

namespace Prog

/-- Every request that the program may send satisfies `P`. -/
def Issues (P : Req → Prop) : Prog Self Err Req Msg α → Prop
  | .done _ | .raise _ | .exhausted => True
  | .get next => ∀ self, (next self).Issues P
  | .put _ next => next.Issues P
  | .send request next => P request ∧ next.Issues P
  | .recv next => ∀ message, (next message).Issues P

variable {P : Req → Prop}

theorem Issues.bind {p : Prog Self Err Req Msg α} {f : α → Prog Self Err Req Msg β}
    (h : p.Issues P) (hf : ∀ a, (f a).Issues P) : (p.bind f).Issues P := by
  induction p with
  | done a => exact hf a
  | raise err => trivial
  | exhausted => trivial
  | get next ih => exact fun self => ih self (h self)
  | put self next ih => exact ih h
  | send request next ih => exact ⟨h.1, ih h.2⟩
  | recv next ih => exact fun message => ih message (h message)

theorem Issues.attempt {p : Prog Self Err Req Msg α} (h : p.Issues P) : p.attempt.Issues P := by
  induction p with
  | done a => trivial
  | raise err => trivial
  | exhausted => trivial
  | get next ih => exact fun self => ih self (h self)
  | put self next ih => exact ih h
  | send request next ih => exact ⟨h.1, ih h.2⟩
  | recv next ih => exact fun message => ih message (h message)

theorem Issues.of_mem {p : Prog Self Err Req Msg α} (h : p.Issues P) :
    ∀ request ∈ (run answer p self env inbox).requests, P request := by
  induction p generalizing self env inbox with
  | done a => simp [run]
  | raise err => simp [run]
  | exhausted => simp [run]
  | get next ih => exact ih self (h self)
  | put self next ih => exact ih h
  | send request next ih =>
      intro request' hmem
      rcases List.mem_cons.mp hmem with rfl | hrest
      · exact h.1
      · exact ih h.2 request' hrest
  | recv next ih =>
      cases inbox with
      | nil => simp [run]
      | cons message inbox => exact ih message (h message)

end Prog

/-! ## Listening

A program on its own, run on the messages that have arrived so far. -/

def silent (_ : Unit) (_ : Req) : Unit × List Msg := ((), [])

/-- The run of a program on the messages that have arrived. -/
abbrev hear (p : Prog Self Err Req Msg α) (self : Self) (inbox : List Msg) :
    Ended Unit Self Err Req Msg α :=
  run silent p self () inbox

/-- With more messages, a program sends what it has sent and possibly more. -/
theorem hear_requests_prefix (p : Prog Self Err Req Msg α) (self : Self)
    (inbox more : List Msg) :
    (hear p self inbox).requests <+: (hear p self (inbox ++ more)).requests := by
  induction p generalizing self inbox with
  | done a => simp [hear, run]
  | raise err => simp [hear, run]
  | exhausted => simp [hear, run]
  | get next ih => exact ih self self inbox
  | put other next ih => exact ih other inbox
  | send request next ih =>
      have hnext := ih self inbox
      simpa [hear, run, silent] using hnext
  | recv next ih =>
      cases inbox with
      | nil => exact List.nil_prefix
      | cons message inbox => exact ih message self inbox

theorem hear_unread_suffix (p : Prog Self Err Req Msg α) (self : Self) (inbox : List Msg) :
    (hear p self inbox).unread <:+ inbox := by
  induction p generalizing self inbox with
  | done a => exact List.suffix_rfl
  | raise err => exact List.suffix_rfl
  | exhausted => exact List.suffix_rfl
  | get next ih => exact ih self self inbox
  | put other next ih => exact ih other inbox
  | send request next ih => simpa [hear, run, silent] using ih self inbox
  | recv next ih =>
      cases inbox with
      | nil => exact List.suffix_rfl
      | cons message inbox => exact (ih message self inbox).trans (List.suffix_cons message inbox)

/-- A program that is over leaves further messages unread. -/
theorem hear_append {p : Prog Self Err Req Msg α} {self : Self} {inbox : List Msg}
    (h : (hear p self inbox).outcome.over = true) (more : List Msg) :
    hear p self (inbox ++ more) =
      { hear p self inbox with unread := (hear p self inbox).unread ++ more } := by
  induction p generalizing self inbox with
  | done a => rfl
  | raise err => rfl
  | exhausted => cases h
  | get next ih => exact ih self h
  | put other next ih => exact ih h
  | send request next ih =>
      have hnext : (hear next self inbox).outcome.over = true := by simpa [hear, run, silent] using h
      have heq := ih hnext
      simp only [hear, run, silent, List.append_nil] at heq ⊢
      rw [heq]
      rfl
  | recv next ih =>
      cases inbox with
      | nil => cases h
      | cons message inbox => exact ih message h

/-! ## What a program reads -/

namespace Prog

/-- Wherever the program is done, it has read messages that `R` relates to what it returns. -/
def Consumes (p : Prog Self Err Req Msg α) (R : α → List Msg → Prop) : Prop :=
  ∀ self inbox a, (hear p self inbox).outcome = .done a →
    ∃ read, inbox = read ++ (hear p self inbox).unread ∧ R a read

variable {p : Prog Self Err Req Msg α} {R S : α → List Msg → Prop}

theorem Consumes.mono (h : p.Consumes R) (hmono : ∀ a read, R a read → S a read) : p.Consumes S := by
  intro self inbox a hdone
  obtain ⟨read, hinbox, hR⟩ := h self inbox a hdone
  exact ⟨read, hinbox, hmono a read hR⟩

theorem consumes_done {a : α} (h : R a []) : (Prog.done a : Prog Self Err Req Msg α).Consumes R := by
  rintro self inbox b hdone
  cases hdone
  exact ⟨[], rfl, h⟩

theorem consumes_raise (err : Err) : (Prog.raise err : Prog Self Err Req Msg α).Consumes R :=
  fun _ _ _ hdone => by cases hdone

theorem consumes_exhausted : (Prog.exhausted : Prog Self Err Req Msg α).Consumes R :=
  fun _ _ _ hdone => by cases hdone

theorem consumes_get {next : Self → Prog Self Err Req Msg α} (h : ∀ self, (next self).Consumes R) :
    (Prog.get next).Consumes R :=
  fun self => h self self

theorem consumes_put {self : Self} {next : Prog Self Err Req Msg α} (h : next.Consumes R) :
    (Prog.put self next).Consumes R :=
  fun _ => h self

theorem consumes_send {request : Req} {next : Prog Self Err Req Msg α} (h : next.Consumes R) :
    (Prog.send request next).Consumes R := by
  intro self inbox a hdone
  simp only [hear, run, silent, List.append_nil, Ended.after_outcome, Ended.after_unread] at hdone ⊢
  exact h self inbox a hdone

theorem consumes_ofExcept {result : Except Err α} (h : ∀ a, result = .ok a → R a []) :
    (Prog.ofExcept result : Prog Self Err Req Msg α).Consumes R := by
  cases result with
  | ok a => exact consumes_done (h a rfl)
  | error err => exact consumes_raise err

/-- What two programs in sequence read. -/
theorem Consumes.bind {f : α → Prog Self Err Req Msg β} {T : β → List Msg → Prop} (h : p.Consumes R)
    (hf : ∀ a read, R a read → (f a).Consumes fun b more => T b (read ++ more)) : (p.bind f).Consumes T := by
  intro self inbox b hdone
  obtain ⟨a, ha, heq⟩ := done_of_bind hdone
  have hrun : hear (p.bind f) self inbox = _ := heq
  rw [hrun, Ended.after_outcome] at hdone
  obtain ⟨read, hinbox, hR⟩ := h self inbox a ha
  obtain ⟨more, hunread, hT⟩ := hf a read hR _ _ b hdone
  refine ⟨read ++ more, ?_, hT⟩
  rw [hrun, Ended.after_unread, List.append_assoc, ← hunread, ← hinbox]

end Prog

/-! ## Two programs that do the same -/

namespace Prog

/-- Wherever `p` is done, `q` is done, and has sent and read the same. -/
def Covers (p : Prog Self Err Req Msg α) (q : Prog Self Err Req Msg β) : Prop :=
  ∀ self inbox a, (hear p self inbox).outcome = .done a → ∃ b,
    hear q self inbox = ⟨.done b, (hear p self inbox).self, (), (hear p self inbox).requests,
      (hear p self inbox).unread⟩

theorem Covers.refl (p : Prog Self Err Req Msg α) : p.Covers p := by
  intro self inbox a hdone
  exact ⟨a, by rw [← hdone]⟩

theorem covers_done (a : α) (b : β) :
    (Prog.done a : Prog Self Err Req Msg α).Covers (Prog.done b : Prog Self Err Req Msg β) :=
  fun _ _ _ _ => ⟨b, rfl⟩

/-- A program that only returns something else. -/
theorem covers_map (p : Prog Self Err Req Msg α) (f : α → β) :
    (p.bind fun a => .done (f a)).Covers p := by
  intro self inbox b hdone
  obtain ⟨a, ha, heq⟩ := done_of_bind hdone
  have hrun : hear (p.bind fun a => .done (f a)) self inbox = _ := heq
  refine ⟨a, ?_⟩
  rw [hrun, ← ha]
  simp [run, Ended.after]

theorem Covers.attempt {p : Prog Self Err Req Msg α} {q : Prog Self Err Req Msg β}
    (h : p.Covers q) : p.Covers q.attempt := by
  intro self inbox a hdone
  obtain ⟨b, hq⟩ := h self inbox a hdone
  refine ⟨.ok b, ?_⟩
  have hattempt : hear q.attempt self inbox = _ := run_attempt q self () inbox
  rw [← hear, hq] at hattempt
  exact hattempt

theorem Covers.bind {γ δ : Type} {p : Prog Self Err Req Msg α} {q : Prog Self Err Req Msg β}
    {f : α → Prog Self Err Req Msg γ} {g : β → Prog Self Err Req Msg δ} (h : p.Covers q)
    (hf : ∀ a b, (f a).Covers (g b)) : (p.bind f).Covers (q.bind g) := by
  intro self inbox c hdone
  obtain ⟨a, ha, heq⟩ := done_of_bind hdone
  have hrun : hear (p.bind f) self inbox = _ := heq
  obtain ⟨b, hq⟩ := h self inbox a ha
  rw [hrun, Ended.after_outcome] at hdone
  obtain ⟨d, hg⟩ := hf a b _ _ c hdone
  refine ⟨d, ?_⟩
  rw [hear, run_bind_done hq, hrun]
  exact congrArg (Ended.after _) hg

end Prog

end Dialogue
