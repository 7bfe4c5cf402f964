import Dime.Foundation.Dialogue

/-!
# Requests, and what is read after them

The messages that a program reads between its requests. Where it is known of each request
which messages a program reads after it, they decide how the messages that arrive are shared
out among its requests.
-/

namespace Dialogue

variable {Self Err Req Msg α β : Type}

namespace Prog

/-- What a program reads before its first request, and each of its requests with what it
reads up to the next one. -/
def exchanges : Prog Self Err Req Msg α → Self → List Msg → List Msg × List (Req × List Msg)
  | .done _, _, _ => ([], [])
  | .raise _, _, _ => ([], [])
  | .exhausted, _, _ => ([], [])
  | .get next, self, inbox => (next self).exchanges self inbox
  | .put self next, _, inbox => next.exchanges self inbox
  | .send request next, self, inbox =>
      let rest := next.exchanges self inbox
      ([], (request, rest.1) :: rest.2)
  | .recv _, _, [] => ([], [])
  | .recv next, self, message :: inbox =>
      let rest := (next message).exchanges self inbox
      (message :: rest.1, rest.2)

/-- With some messages due, a program reads them all before it asks or is over; `takes` tells
what it reads after a request. -/
def Takes (takes : Req → List Msg → Prop) : Prog Self Err Req Msg α → List Msg → Prop
  | .done _, due => due = []
  | .raise _, due => due = []
  | .exhausted, _ => False
  | .get next, due => ∀ self, (next self).Takes takes due
  | .put _ next, due => next.Takes takes due
  | .send request next, due => due = [] ∧ ∀ taken, takes request taken → next.Takes takes taken
  | .recv _, [] => False
  | .recv next, message :: due => (next message).Takes takes due

variable {takes : Req → List Msg → Prop} {due : List Msg} {p : Prog Self Err Req Msg α}

theorem Takes.bind {f : α → Prog Self Err Req Msg β} (h : p.Takes takes due)
    (hf : ∀ a, (f a).Takes takes []) : (p.bind f).Takes takes due := by
  induction p generalizing due with
  | done a =>
      obtain rfl : due = [] := h
      exact hf a
  | raise err => exact h
  | exhausted => exact h
  | get next ih => exact fun self => ih self (h self)
  | put self next ih => exact ih h
  | send request next ih => exact ⟨h.1, fun taken htaken => ih (h.2 taken htaken)⟩
  | recv next ih =>
      cases due with
      | nil => exact h
      | cons message due => exact ih message h

theorem Takes.attempt (h : p.Takes takes due) : p.attempt.Takes takes due := by
  induction p generalizing due with
  | done a => exact h
  | raise err => exact h
  | exhausted => exact h
  | get next ih => exact fun self => ih self (h self)
  | put self next ih => exact ih h
  | send request next ih => exact ⟨h.1, fun taken htaken => ih (h.2 taken htaken)⟩
  | recv next ih =>
      cases due with
      | nil => exact h
      | cons message due => exact ih message h

theorem takes_ofExcept (result : Except Err α) :
    (ofExcept result : Prog Self Err Req Msg α).Takes takes [] := by
  cases result with
  | ok a => rfl
  | error err => rfl

/-- The requests are those of the run. -/
theorem exchanges_requests (p : Prog Self Err Req Msg α) (self : Self) (inbox : List Msg) :
    (p.exchanges self inbox).2.map Prod.fst = (hear p self inbox).requests := by
  induction p generalizing self inbox with
  | done a => rfl
  | raise err => rfl
  | exhausted => rfl
  | get next ih => exact ih self self inbox
  | put other next ih => exact ih other inbox
  | send request next ih =>
      have hnext := ih self inbox
      simpa [exchanges, hear, run, silent] using hnext
  | recv next ih =>
      cases inbox with
      | nil => rfl
      | cons message inbox => exact ih message self inbox

/-- The messages are read from the front. -/
theorem exchanges_read (p : Prog Self Err Req Msg α) (self : Self) (inbox : List Msg) :
    (p.exchanges self inbox).1 ++ (p.exchanges self inbox).2.flatMap Prod.snd <+: inbox := by
  induction p generalizing self inbox with
  | done a => exact List.nil_prefix
  | raise err => exact List.nil_prefix
  | exhausted => exact List.nil_prefix
  | get next ih => exact ih self self inbox
  | put other next ih => exact ih other inbox
  | send request next ih => exact ih self inbox
  | recv next ih =>
      cases inbox with
      | nil => exact List.nil_prefix
      | cons message inbox => exact List.cons_prefix_cons.mpr ⟨rfl, ih message self inbox⟩

/-- What is taken for the requests that are sent is what is read after them, with whatever
comes behind. -/
theorem Takes.exchanges_prefix (h : p.Takes takes due) {taken : List (Req × List Msg)}
    (htaken : ∀ exchange ∈ taken, takes exchange.1 exchange.2) {self : Self} {rest : List Msg}
    (hrequests : taken.map Prod.fst <+:
      (hear p self (due ++ (taken.flatMap Prod.snd ++ rest))).requests) :
    (p.exchanges self (due ++ (taken.flatMap Prod.snd ++ rest))).1 = due ∧
      taken <+: (p.exchanges self (due ++ (taken.flatMap Prod.snd ++ rest))).2 := by
  induction p generalizing due taken self with
  | done a =>
      obtain rfl := List.map_eq_nil_iff.mp (List.prefix_nil.mp hrequests)
      exact ⟨h.symm, List.nil_prefix⟩
  | raise err =>
      obtain rfl := List.map_eq_nil_iff.mp (List.prefix_nil.mp hrequests)
      exact ⟨h.symm, List.nil_prefix⟩
  | exhausted => exact absurd h id
  | get next ih => exact ih self (h self) htaken hrequests
  | put other next ih => exact ih h htaken hrequests
  | send request next ih =>
      obtain ⟨rfl, hnext⟩ := h
      refine ⟨rfl, ?_⟩
      cases taken with
      | nil => exact List.nil_prefix
      | cons exchange taken =>
          obtain ⟨request', messages⟩ := exchange
          obtain ⟨hhead, htail⟩ := List.forall_mem_cons.mp htaken
          have hsent : request' :: taken.map Prod.fst <+: request ::
              (hear next self (messages ++ (taken.flatMap Prod.snd ++ rest))).requests := by
            simpa [hear, run, silent] using hrequests
          obtain ⟨rfl, hrest⟩ := List.cons_prefix_cons.mp hsent
          obtain ⟨hread, hprefix⟩ := ih (hnext messages hhead) htail hrest
          have hinbox : [] ++ (((request', messages) :: taken).flatMap Prod.snd ++ rest) =
              messages ++ (taken.flatMap Prod.snd ++ rest) := by simp
          rw [hinbox]
          exact List.cons_prefix_cons.mpr ⟨by rw [hread], hprefix⟩
  | recv next ih =>
      cases due with
      | nil => exact absurd h id
      | cons message due =>
          obtain ⟨hread, hprefix⟩ := ih message h htaken hrequests
          exact ⟨congrArg (message :: ·) hread, hprefix⟩

/-- While something is due that has not arrived, nothing is asked. -/
theorem Takes.requests_eq_nil (h : p.Takes takes due) (hdue : due ≠ []) (self : Self) :
    (hear p self []).requests = [] := by
  induction p generalizing due self with
  | done a => exact absurd h hdue
  | raise err => exact absurd h hdue
  | exhausted => rfl
  | get next ih => exact ih self (h self) hdue self
  | put other next ih => exact ih h hdue other
  | send request next ih => exact absurd h.1 hdue
  | recv next ih => rfl

/-- A request for which nothing has arrived is the last one. -/
theorem Takes.requests_eq (h : p.Takes takes due) {taken : List (Req × List Msg)}
    (htaken : ∀ exchange ∈ taken, takes exchange.1 exchange.2) {last : Req} {answer : List Msg}
    (hlast : takes last answer) (hanswer : answer ≠ []) {self : Self}
    (hrequests : taken.map Prod.fst ++ [last] <+:
      (hear p self (due ++ taken.flatMap Prod.snd)).requests) :
    (hear p self (due ++ taken.flatMap Prod.snd)).requests = taken.map Prod.fst ++ [last] := by
  have hnonempty : ¬ taken.map Prod.fst ++ [last] <+: [] := by simp
  induction p generalizing due taken self with
  | done a => exact absurd hrequests hnonempty
  | raise err => exact absurd hrequests hnonempty
  | exhausted => exact absurd h id
  | get next ih => exact ih self (h self) htaken hrequests hnonempty
  | put other next ih => exact ih h htaken hrequests hnonempty
  | send request next ih =>
      obtain ⟨rfl, hnext⟩ := h
      cases taken with
      | nil =>
          have hsent : [last] <+: request :: (hear next self []).requests := by
            simpa [hear, run, silent] using hrequests
          obtain ⟨rfl, _⟩ := List.cons_prefix_cons.mp hsent
          have hquiet := (hnext answer hlast).requests_eq_nil hanswer self
          simpa [hear, run, silent] using hquiet
      | cons exchange taken =>
          obtain ⟨request', messages⟩ := exchange
          obtain ⟨hhead, htail⟩ := List.forall_mem_cons.mp htaken
          have hsent : request' :: (taken.map Prod.fst ++ [last]) <+: request ::
              (hear next self (messages ++ taken.flatMap Prod.snd)).requests := by
            simpa [hear, run, silent] using hrequests
          obtain ⟨rfl, hrest⟩ := List.cons_prefix_cons.mp hsent
          have heq := ih (hnext messages hhead) htail hrest (by simp)
          simpa [hear, run, silent] using heq
  | recv next ih =>
      cases due with
      | nil => exact absurd h id
      | cons message due => exact ih message h htaken hrequests hnonempty

end Prog

end Dialogue
